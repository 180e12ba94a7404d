import WarheadFix.Shared.FieldSearch
import WarheadFix.Shared.ReaderFraming
import WarheadFix.Shared.WrittenMessages

/-! What the writer writes, the reader reads: one field after the other, each with its tag, and
each value under the conversion for its type. -/

namespace Warhead.Hffix
open Lib MessageWriter

def iterators (mem : Bytes) (r : MessageReader) : Nat → ConstIterator → Result (List ConstIterator)
  | 0, _ => .error .diverges
  | fuel + 1, i =>
    if i.buffer = r.end_.buffer then pure []
    else do
      let is ← iterators mem r fuel (← increment mem r i)
      pure (i :: is)

def calculateCheckSum (mem : Bytes) (r : MessageReader) : Result UInt8 :=
  if r.isValid then do pure (checkSum (← span mem 0 r.end_.buffer))
  else .error (.thrown .logicError)

def IsFieldTag (tag : Int) : Prop := 0 ≤ tag ∧ tag < 2 ^ 31 ∧ isTagADataLength tag = false

instance (tag : Int) : Decidable (IsFieldTag tag) := instDecidableAnd

namespace FieldEntry

/-- What a field must be to be told apart from the others. Data may hold any bytes. -/
def WellFormed : FieldEntry → Prop
  | data tagDataLength tagData _ =>
    isTagADataLength tagDataLength = true ∧ 0 ≤ tagData ∧ tagData < 2 ^ 31
  | entry => IsFieldTag entry.tag ∧ SOH ∉ entry.value

def InRange : FieldEntry → Prop
  | int _ number => IsInt number
  | decimal _ mantissa exponent => IsInt mantissa ∧ exponent ≤ 0
  | timestamp _ t => t.InRange
  | timePoint _ tp => IsTimePoint tp
  | _ => True

def At (mem : Bytes) (i : ConstIterator) (entry : FieldEntry) : Prop :=
  i.current.tag = entry.tag ∧ ∃ b rest, i.current.value = ⟨b, b + entry.value.length⟩ ∧
    suffix mem b = entry.value ++ SOH :: rest

/-- The conversion for the type of the field gives what was appended; a time point comes back
in milliseconds. -/
def ReadFrom (mem : Bytes) (v : FieldValue) : FieldEntry → Prop
  | string _ s => asString mem v = .ok s
  | char _ character => asChar mem v = .ok character
  | int _ number => asInt mem v = .ok number
  | decimal _ mantissa exponent => asDecimal mem v = .ok (mantissa, exponent)
  | timestamp _ t => asParts mem v = .ok (some t)
  | timePoint _ tp => asTimePoint mem v = .ok (some (tp / 1000000))
  | data _ _ bytes => asString mem v = .ok bytes

def ReadAt (mem : Bytes) (i : ConstIterator) (entry : FieldEntry) : Prop :=
  i.current.tag = entry.tag ∧ entry.ReadFrom mem i.current.value

end FieldEntry

section Step
variable {mem rest : Bytes} {messageEnd p : Int}

theorem asString_of_span {b e : Int} {s : Bytes} (hle : b ≤ e)
    (h : (span mem b e : Result Bytes) = .ok s) : asString mem ⟨b, e⟩ = .ok s := by
  rw [asString, if_neg (not_lt.mpr hle)]
  exact h

theorem fieldAt_plain {tag : Int} {v : Bytes} (htag : IsFieldTag tag) (hv : SOH ∉ v)
    (htext : suffix mem p = fieldBytes tag v ++ rest)
    (hend : p + (fieldBytes tag v).length ≤ messageEnd) : ∃ b : Int,
      FieldAt mem messageEnd p ⟨p, ⟨tag, ⟨b, b + v.length⟩⟩⟩ ∧
      b + v.length + 1 = p + (fieldBytes tag v).length ∧ suffix mem b = v ++ SOH :: rest := by
  obtain ⟨hnonneg, hint, hlength⟩ := htag
  have hparts : suffix mem p = itoa tag ++ 61 :: (v ++ SOH :: rest) := by
    rw [htext]
    simp only [fieldBytes, List.append_assoc, List.cons_append, List.nil_append]
  have hlen : ((fieldBytes tag v).length : Int) = (itoa tag).length + 1 + v.length + 1 := by
    simp only [fieldBytes, List.length_append, List.length_singleton]
    push_cast
    ring
  have htagOf : tagOf (itoa tag) = tag := tagOf_itoa hnonneg hint
  have hfield : FieldAt mem messageEnd p _ :=
    .plain hparts (isTag_itoa hnonneg) hv (by omega) (by rw [htagOf]; exact hlength)
  rw [htagOf] at hfield
  exact ⟨p + (itoa tag).length + 1, hfield, by omega, suffix_cons hparts⟩

theorem isTagADataLength_nonneg {tag : Int} (h : isTagADataLength tag = true) :
    0 ≤ tag ∧ tag < 2 ^ 31 := by
  have hmem : tag ∈ lengthFields := by
    unfold isTagADataLength at h
    exact List.mem_of_find?_eq_some (beq_iff_eq.mp h)
  have hall : ∀ t ∈ lengthFields, 0 ≤ t ∧ t < 2 ^ 31 := by decide
  exact hall tag hmem

theorem fieldAt_data {tagDataLength tagData : Int} {bytes : Bytes}
    (hlength : isTagADataLength tagDataLength = true) (htag : 0 ≤ tagData ∧ tagData < 2 ^ 31)
    (htext : suffix mem p = (FieldEntry.data tagDataLength tagData bytes).text ++ rest)
    (hend : p + (FieldEntry.data tagDataLength tagData bytes).text.length ≤ messageEnd)
    (hsize : bytes.length < 2 ^ 63) : ∃ q b : Int,
      FieldAt mem messageEnd p ⟨q, ⟨tagData, ⟨b, b + bytes.length⟩⟩⟩ ∧ p ≤ q ∧ q ≤ b ∧
      b + bytes.length + 1 = p + (FieldEntry.data tagDataLength tagData bytes).text.length ∧
      suffix mem b = bytes ++ SOH :: rest := by
  obtain ⟨hnonneg, hint⟩ := isTagADataLength_nonneg hlength
  have hdigits : itoa bytes.length = digits bytes.length := itoa_of_nonneg (Int.natCast_nonneg _)
  have hparts : suffix mem p = itoa tagDataLength ++ 61 :: (digits bytes.length ++
      SOH :: (itoa tagData ++ 61 :: (bytes ++ SOH :: rest))) := by
    rw [htext, FieldEntry.text, hdigits]
    simp only [fieldBytes, List.append_assoc, List.cons_append, List.nil_append]
  have hlen : ((FieldEntry.data tagDataLength tagData bytes).text.length : Int) =
      (itoa tagDataLength).length + 1 + (digits bytes.length).length + 1 +
        ((itoa tagData).length + 1 + bytes.length + 1) := by
    rw [FieldEntry.text, hdigits]
    simp only [fieldBytes, List.length_append, List.length_singleton]
    push_cast
    ring
  have hcount : displacement (atou (digits bytes.length)) = bytes.length := by
    rw [atou_isDigits (isDigits_digits _), decimal_digits, Nat.mod_eq_of_lt (by omega),
      displacement_of_lt hsize]
  have hlengthTag : tagOf (itoa tagDataLength) = tagDataLength := tagOf_itoa hnonneg hint
  have hnoEquals : (61 : UInt8) ∉ itoa tagData := by
    intro h
    exact (isTag_itoa htag.1 61 h).1 rfl
  have hfield : FieldAt mem messageEnd p _ :=
    .data hparts (isTag_itoa hnonneg) (soh_not_mem_digits _) (by omega)
      (by rw [hlengthTag]; exact hlength) hnoEquals rfl
  rw [tagOf_itoa htag.1 htag.2, hcount] at hfield
  exact ⟨_, _, hfield, by omega, by omega, by omega,
    suffix_cons (suffix_cons (suffix_cons hparts))⟩

theorem FieldEntry.At.readAt {entry : FieldEntry} {i : ConstIterator} (h : entry.At mem i)
    (hentry : entry.InRange) : entry.ReadAt mem i := by
  obtain ⟨htag, b, rest, hvalue, hsuffix⟩ := h
  refine ⟨htag, ?_⟩
  rw [hvalue]
  have hspan := span_of_suffix hsuffix
  cases entry with
  | string tag s => exact asString_of_span (by omega) hspan
  | char tag character =>
    change byteAt mem b = _
    rw [byteAt, hsuffix]
    rfl
  | int tag number => exact asInt_itoa hentry hspan
  | decimal tag mantissa exponent =>
    obtain ⟨hmantissa, hexponent⟩ := hentry
    have hread : asDecimal mem ⟨b, b + (dtoa mantissa exponent).length⟩ = _ :=
      asDecimal_dtoa hmantissa hspan
    rwa [min_eq_left hexponent] at hread
  | timestamp tag t => exact asParts_timestampText hentry (by rw [value, length_timestampText]; rfl) hspan
  | timePoint tag tp =>
    exact asTimePoint_timepointtoparts hentry (by rw [value, length_timestampText]; rfl) hspan
  | data tagDataLength tagData bytes => exact asString_of_span (by omega) hspan

theorem fieldAt_entry_plain {entry : FieldEntry} (hbytes : entry.text = fieldBytes entry.tag entry.value)
    (hentry : IsFieldTag entry.tag ∧ SOH ∉ entry.value)
    (htext : suffix mem p = entry.text ++ rest) (hend : p + entry.text.length ≤ messageEnd) :
    ∃ j : ConstIterator, FieldAt mem messageEnd p j ∧ entry.At mem j ∧
      j.buffer < p + entry.text.length ∧ j.current.value.end_ + 1 = p + entry.text.length := by
  rw [hbytes] at htext hend ⊢
  obtain ⟨b, hat, hnext, hsuffix⟩ := fieldAt_plain hentry.1 hentry.2 htext hend
  have hpos : 0 < (fieldBytes entry.tag entry.value).length := by
    simp only [fieldBytes, List.length_append, List.length_singleton]
    omega
  exact ⟨_, hat, ⟨rfl, b, rest, rfl, hsuffix⟩, by dsimp only; omega, hnext⟩

theorem fieldAt_entry {entry : FieldEntry} (hentry : entry.WellFormed)
    (htext : suffix mem p = entry.text ++ rest) (hend : p + entry.text.length ≤ messageEnd)
    (hsize : messageEnd < 2 ^ 63) (hp : 0 ≤ p) : ∃ j : ConstIterator,
      FieldAt mem messageEnd p j ∧ entry.At mem j ∧ j.buffer < p + entry.text.length ∧
      j.current.value.end_ + 1 = p + entry.text.length := by
  cases entry with
  | data tagDataLength tagData bytes =>
    have hcount : bytes.length ≤ (FieldEntry.data tagDataLength tagData bytes).text.length := by
      simp only [FieldEntry.text, fieldBytes, List.length_append]
      omega
    obtain ⟨q, b, hat, hpq, hqb, hnext, hsuffix⟩ := fieldAt_data hentry.1 hentry.2 htext hend
      (by omega)
    exact ⟨_, hat, ⟨rfl, b, rest, rfl, hsuffix⟩, by dsimp only; omega, hnext⟩
  | _ => exact fieldAt_entry_plain rfl hentry htext hend

end Step

section Iteration
variable {mem : Bytes} {r : MessageReader}

theorem isFieldTag_ten : IsFieldTag 10 := by
  refine ⟨by decide, by decide, by decide⟩

theorem iterators_entries {entries : List FieldEntry} {sum tail : Bytes} {i : ConstIterator}
    {fuel : Nat} (hentries : ∀ entry ∈ entries, entry.WellFormed) (hsum : SOH ∉ sum)
    (htext : suffix mem (i.current.value.end_ + 1) =
      entries.flatMap FieldEntry.text ++ (fieldBytes 10 sum ++ tail))
    (hend : r.end_.buffer =
      i.current.value.end_ + 1 + (entries.flatMap FieldEntry.text).length)
    (hmessage : r.messageEnd = r.end_.buffer + (fieldBytes 10 sum).length)
    (hsize : r.messageEnd < 2 ^ 63) (hi : 0 ≤ i.current.value.end_ + 1)
    (hfuel : entries.length < fuel) : ∃ is,
      (increment mem r i >>= iterators mem r fuel) = .ok is ∧
      List.Forall₂ (FieldEntry.At mem) is entries := by
  induction entries generalizing i fuel with
  | nil =>
    rw [List.flatMap_nil, List.length_nil, Nat.cast_zero, add_zero] at hend
    rw [List.flatMap_nil, List.nil_append] at htext
    obtain ⟨fuel, rfl⟩ := Nat.exists_eq_add_one.mpr hfuel
    have hlast : i.current.value.end_ + 1 + (fieldBytes 10 sum).length ≤ r.messageEnd := by omega
    obtain ⟨b, hat, -, -⟩ := fieldAt_plain isFieldTag_ten hsum htext hlast
    refine ⟨[], ?_, .nil⟩
    rw [increment_of_fieldAt hat]
    exact if_pos hend.symm
  | cons entry entries ih =>
    obtain ⟨hentry, hentries⟩ := List.forall_mem_cons.mp hentries
    rw [List.flatMap_cons, List.append_assoc] at htext
    rw [List.flatMap_cons, List.length_append, Nat.cast_add] at hend
    obtain ⟨fuel, rfl⟩ := Nat.exists_eq_add_one.mpr (Nat.zero_lt_of_lt hfuel)
    have hfirst : i.current.value.end_ + 1 + entry.text.length ≤ r.messageEnd := by omega
    obtain ⟨j, hfield, hat, hbuffer, hnext⟩ := fieldAt_entry hentry htext hfirst hsize hi
    have hrest := suffix_append htext
    rw [← hnext] at hrest
    obtain ⟨is, his, hall⟩ := ih hentries hrest (by omega) (by omega) (Nat.lt_of_succ_lt_succ hfuel)
    refine ⟨j :: is, ?_, .cons hat hall⟩
    rw [increment_of_fieldAt hfield]
    change iterators mem r (fuel + 1) j = _
    rw [iterators, if_neg (by omega)]
    obtain ⟨k, hk, his⟩ := bind_eq_ok.mp his
    rw [hk]
    simp only [Bind.bind, Except.bind]
    rw [his]
    rfl

end Iteration

section Frame
variable {version tail : Bytes} {f : Frame} {n : Nat}

def preceding (version : Bytes) (f : Frame) : Bytes := Frame.head version f.digits ++ f.body

def sumText (version : Bytes) (f : Frame) : Bytes := threeDigits (byteSum (preceding version f))

theorem soh_not_mem_sumText : SOH ∉ sumText version f := by
  rw [sumText, ← itoaPadded_three]
  exact soh_not_mem_itoaPadded _ _

theorem bytes_sumText (version : Bytes) (f : Frame) (tail : Bytes) :
    f.bytes version ++ tail = preceding version f ++ (fieldBytes 10 (sumText version f) ++ tail) := by
  have htrailer : Frame.trailer (Frame.head version f.digits ++ f.body) =
      fieldBytes 10 (sumText version f) := rfl
  rw [bytes_append, htrailer, preceding, List.append_assoc]

theorem drop_bytes_type (hn : (Frame.head version f.digits).length + 3 = n) :
    (f.bytes version ++ tail).drop n =
      f.msgType ++ SOH :: (f.rest ++ (fieldBytes 10 (sumText version f) ++ tail)) := by
  refine drop_of_append (Frame.head version f.digits ++ ascii "35=") _ ?_ ?_
  · rw [bytes_sumText]
    simp only [preceding, Frame.body, List.append_assoc, List.cons_append]
  · rw [← hn, List.length_append]
    rfl

theorem span_preceding (hn : (Frame.head version f.digits).length + f.body.length = n) :
    (span (f.bytes version ++ tail) 0 n : Result Bytes) = .ok (preceding version f) := by
  refine span_of_drop (n := 0) _ (bytes_sumText version f tail) ?_
  rw [Nat.zero_add, preceding, List.length_append, hn]

theorem span_sumText (hn : (Frame.head version f.digits).length + f.body.length + 3 = n) :
    (span (f.bytes version ++ tail) n (n + 3 : Nat) : Result Bytes) =
      .ok (itoaPadded 3 (byteSum (preceding version f))) := by
  refine span_of_drop ([SOH] ++ tail) ?_ (by rw [length_itoaPadded])
  refine drop_of_append (preceding version f ++ ascii "10=") _ ?_ ?_
  · rw [bytes_sumText, itoaPadded_three, sumText]
    simp only [fieldBytes, List.append_assoc]
    rfl
  · rw [← hn, List.length_append, preceding, List.length_append]
    rfl

end Frame

/-- A reader over `size` bytes of the memory finds a message of this length: the MsgType, the
fields in order, and the CheckSum of the bytes before it. -/
structure Finds (mem : Bytes) (size length : Nat) (type : Bytes) (entries : List FieldEntry)
    (r : MessageReader) (is : List ConstIterator) : Prop where
  reader : messageReader mem size = .ok r
  bufferSize : r.bufferSize = size
  isComplete : r.isComplete = true
  isValid : r.isValid = true
  messageEnd : r.messageEnd = length
  iterators : iterators mem r (size + 2) r.begin_ = .ok (r.begin_ :: is)
  type : (FieldEntry.string 35 type).At mem r.begin_
  fields : List.Forall₂ (FieldEntry.At mem) is entries
  checkSum : ∃ sum, calculateCheckSum mem r = .ok sum ∧
    asInt mem r.end_.current.value = .ok sum.toNat

section RoundTrip
variable {type : Bytes} {entries : List FieldEntry} {version : Bytes}

theorem length_text_pos (entry : FieldEntry) : 0 < entry.text.length := by
  obtain ⟨fields, hends⟩ := text_ends entry
  rw [hends, List.length_append]
  exact Nat.succ_pos _

theorem length_le_flatMap (entries : List FieldEntry) :
    entries.length ≤ (entries.flatMap FieldEntry.text).length := by
  induction entries with
  | nil => exact le_rfl
  | cons entry entries ih =>
    have hpos := length_text_pos entry
    rw [List.flatMap_cons, List.length_append, List.length_cons]
    omega

theorem finds_frame (h : Sendable type entries) (hentries : ∀ entry ∈ entries, entry.WellFormed)
    (hv : IsVersion version) (tail : Bytes) {size : Nat}
    (hle : (h.frame.bytes version).length ≤ size) (hsize : size < 2 ^ 63) : ∃ r is,
      Finds (h.frame.bytes version ++ tail) size (h.frame.bytes version).length type entries r is := by
  have hlen := Frame.length_bytes version h.frame
  change _ = _ + type.length + (entries.flatMap FieldEntry.text).length + 17 at hlen
  have hhead := Frame.length_head version h.frame.digits
  have hbody : h.frame.body.length =
      type.length + (entries.flatMap FieldEntry.text).length + 4 := Frame.length_body h.frame
  have hcount := length_le_flatMap entries
  have hlast : (fieldBytes 10 (sumText version h.frame)).length = 7 := rfl
  set mem := h.frame.bytes version ++ tail with hmem
  set start := (Frame.head version h.frame.digits).length with hstart
  have hread : messageReader mem size = .ok (.complete size start
      (start + h.frame.body.length : Nat) (start + 3 + type.length : Nat)) :=
    messageReader_bytes _ hv hle hsize
  set r : MessageReader := .complete size start (start + h.frame.body.length : Nat)
    (start + 3 + type.length : Nat) with hr
  have hbegin : r.begin_.buffer = start := rfl
  have hend : r.end_.buffer = (start + h.frame.body.length : Nat) := rfl
  have hmessage : r.messageEnd = ((start + h.frame.body.length : Nat) : Int) + 6 + 1 := rfl
  have hfirst : r.begin_.current.value.end_ = (start + 3 + type.length : Nat) := rfl
  have htype : mem.drop (start + 3) = type ++ SOH :: (entries.flatMap FieldEntry.text ++
      (fieldBytes 10 (sumText version h.frame) ++ tail)) := drop_bytes_type rfl
  rw [← suffix_natCast] at htype
  have hfields : suffix mem (r.begin_.current.value.end_ + 1) =
      entries.flatMap FieldEntry.text ++ (fieldBytes 10 (sumText version h.frame) ++ tail) := by
    rw [hfirst, Nat.cast_add]
    exact suffix_cons htype
  have hfuel : entries.length < size + 1 := by omega
  obtain ⟨is, his, hall⟩ := iterators_entries hentries soh_not_mem_sumText hfields
    (by rw [hend, hfirst]; push_cast; omega) (by rw [hmessage, hend, hlast]; rfl)
    (by rw [hmessage]; omega) (by rw [hfirst]; omega) hfuel
  refine ⟨r, is, hread, rfl, rfl, rfl, by rw [hmessage]; omega, ?_, ?_, hall,
    checkSum (preceding version h.frame), ?_, ?_⟩
  · rw [iterators, if_neg (by rw [hbegin, hend]; omega)]
    obtain ⟨j, hj, his⟩ := bind_eq_ok.mp his
    rw [hj]
    simp only [Bind.bind, Except.bind]
    rw [his]
    rfl
  · have hvalue : r.begin_.current.value =
        ⟨(start + 3 : Nat), ((start + 3 : Nat) : Int) + type.length⟩ := by
      rw [← Nat.cast_add]
      rfl
    exact ⟨rfl, _, _, hvalue, htype⟩
  · have hspan : (span mem 0 r.end_.buffer : Result Bytes) = .ok (preceding version h.frame) :=
      span_preceding rfl
    have hvalid : r.isValid = true := rfl
    unfold calculateCheckSum
    rw [if_pos hvalid, hspan]
    rfl
  · have hspan : (span mem r.end_.current.value.begin_ r.end_.current.value.end_ :
        Result Bytes) = .ok (itoaPadded 3 (byteSum (preceding version h.frame))) :=
      span_sumText rfl
    have hlt : byteSum (preceding version h.frame) < 256 := Nat.mod_lt _ (by decide)
    rw [toNat_checkSum]
    exact asInt_itoaPadded (Int.natCast_nonneg _) (by push_cast; omega) (by decide) hspan

theorem readAt_of_at {mem : Bytes} {is : List ConstIterator}
    (h : List.Forall₂ (FieldEntry.At mem) is entries)
    (hrange : ∀ entry ∈ entries, entry.InRange) :
    List.Forall₂ (FieldEntry.ReadAt mem) is entries := by
  induction h with
  | nil => exact .nil
  | cons hfield _ ih =>
    obtain ⟨hentry, hrest⟩ := List.forall_mem_cons.mp hrange
    exact .cons (hfield.readAt hentry) (ih hrest)

/-- A message that fits into the buffer is written, and read wherever it is followed by anything:
every field in order, each with its tag and under the conversion for its type. -/
theorem write_readBack (h : Sendable type entries)
    (hentries : ∀ entry ∈ entries, entry.WellFormed ∧ entry.InRange) (hv : IsVersion version)
    (room : Nat) : ∃ text,
      (write room version type entries =
        if room < text.length then .error (.thrown .outOfRange) else .ok text) ∧
      ∀ tail size, text.length ≤ size → size < 2 ^ 63 → ∃ r is,
        Finds (text ++ tail) size text.length type entries r is ∧
        asString (text ++ tail) r.begin_.current.value = .ok type ∧
        List.Forall₂ (FieldEntry.ReadAt (text ++ tail)) is entries := by
  refine ⟨h.frame.bytes version, write_eq h room version, fun tail size hle hsize => ?_⟩
  obtain ⟨r, is, hfinds⟩ := finds_frame h (fun entry he => (hentries entry he).1) hv tail hle hsize
  refine ⟨r, is, hfinds, (hfinds.type.readAt trivial).2, ?_⟩
  exact readAt_of_at hfinds.fields fun entry he => (hentries entry he).2

theorem write_readBack_logon : ∃ text,
    (write 4096 (ascii "FIXT.1.1") (ascii "A")
      [.string 49 (ascii "AAAA"), .int 34 (-1), .decimal 44 50001 (-2),
        .timePoint 52 1709210096123456789, .data 95 96 [1, 61, 0]] =
      if 4096 < text.length then .error (.thrown .outOfRange) else .ok text) ∧
    ∀ tail size, text.length ≤ size → size < 2 ^ 63 → ∃ r is,
      Finds (text ++ tail) size text.length (ascii "A")
        [.string 49 (ascii "AAAA"), .int 34 (-1), .decimal 44 50001 (-2),
          .timePoint 52 1709210096123456789, .data 95 96 [1, 61, 0]] r is ∧
      asString (text ++ tail) r.begin_.current.value = .ok (ascii "A") ∧
      List.Forall₂ (FieldEntry.ReadAt (text ++ tail)) is
        [.string 49 (ascii "AAAA"), .int 34 (-1), .decimal 44 50001 (-2),
          .timePoint 52 1709210096123456789, .data 95 96 [1, 61, 0]] := by
  refine write_readBack ⟨by decide, by decide, by decide +kernel⟩ ?_
    ⟨by decide, by decide⟩ 4096
  simp only [List.forall_mem_cons, List.not_mem_nil, false_implies, implies_true, and_true]
  refine ⟨⟨?_, trivial⟩, ⟨?_, ?_⟩, ⟨?_, ?_⟩, ⟨?_, ?_⟩, ⟨?_, trivial⟩⟩
  · exact ⟨by decide, by decide⟩
  · exact ⟨by decide, by decide⟩
  · exact ⟨by decide, by decide⟩
  · exact ⟨by decide, by decide⟩
  · exact ⟨⟨by decide, by decide⟩, by decide⟩
  · exact ⟨by decide, soh_not_mem_timestampText _⟩
  · exact ⟨by decide, by decide⟩
  · exact ⟨by decide, by decide, by decide⟩

end RoundTrip

end Warhead.Hffix
