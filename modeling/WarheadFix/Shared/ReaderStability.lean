import WarheadFix.Shared.ReaderShape
import WarheadFix.Shared.FixMessage

/-! What reading a message leaves alone. A reading that stays inside some bytes does not
change when others follow them, and finding the command throws nothing. -/

namespace Warhead
open Lib

namespace Hffix
variable {mem : Bytes} {size : Nat}

section Stability

theorem stable_skipPrefix (size b : Nat) : Stable fun cs => skipPrefix size cs b := by
  refine Stable.scan (f := fun b cs => skipPrefix size cs b) (fun b t h => ?_) (fun b c => ?_) b
  · simp only [skipPrefix] at h ⊢
    split_ifs at h ⊢ with hsize
    · cases t <;> simp [skipPrefix, hsize]
    · exact absurd rfl h
  · simp only [skipPrefix]
    split_ifs
    · exact .inl ⟨_, fun _ => rfl⟩
    · exact .inl ⟨_, fun _ => rfl⟩
    · exact .inl ⟨_, fun _ => rfl⟩
    · exact .inr ⟨_, fun _ => rfl⟩

theorem stable_readBodyLength (size b n : Nat) :
    Stable fun cs => readBodyLength size cs b n := by
  refine Stable.scan (f := fun (x : Nat × Nat) cs => readBodyLength size cs x.1 x.2)
    (fun x t h => ?_) (fun x c => ?_) (b, n)
  · simp only [readBodyLength] at h ⊢
    split_ifs at h ⊢ with hsize
    · cases t <;> simp [readBodyLength, hsize]
    · exact absurd rfl h
  · simp only [readBodyLength]
    split_ifs
    · exact .inl ⟨_, fun _ => rfl⟩
    · exact .inl ⟨_, fun _ => rfl⟩
    · exact .inl ⟨_, fun _ => rfl⟩
    · exact .inr ⟨(_, _), fun _ => rfl⟩

theorem stable_readMsgType (checksum p : Int) : Stable fun cs => readMsgType checksum cs p := by
  refine Stable.scan (f := fun p cs => readMsgType checksum cs p) (fun p t h => absurd rfl h)
    (fun p c => ?_) p
  simp only [readMsgType]
  split_ifs
  · exact .inl ⟨_, fun _ => rfl⟩
  · exact .inl ⟨_, fun _ => rfl⟩
  · exact .inr ⟨_, fun _ => rfl⟩

theorem stable_scanTag (tag : Int) (n : Nat) : Stable fun cs => scanTag cs tag n := by
  refine Stable.scan (f := fun (x : Int × Nat) cs => scanTag cs x.1 x.2)
    (fun x t h => absurd rfl h) (fun x c => ?_) (tag, n)
  simp only [scanTag]
  split_ifs
  · exact .inl ⟨_, fun _ => rfl⟩
  · exact .inr ⟨(_, _), fun _ => rfl⟩

theorem stable_scanDataTag (tag : Int) (n : Nat) : Stable fun cs => scanDataTag cs tag n := by
  refine Stable.scan (f := fun (x : Int × Nat) cs => scanDataTag cs x.1 x.2)
    (fun x t h => absurd rfl h) (fun x c => ?_) (tag, n)
  simp only [scanDataTag]
  split_ifs
  · exact .inl ⟨_, fun _ => rfl⟩
  · exact .inr ⟨(_, _), fun _ => rfl⟩

theorem stable_findSoh (k n : Nat) : Stable fun cs => findSoh cs k n := by
  refine Stable.scan (f := fun (x : Nat × Nat) cs => findSoh cs x.1 x.2) (fun x t h => ?_)
    (fun x c => ?_) (k, n)
  · rcases x with ⟨_ | k, n⟩
    · cases t <;> rfl
    · exact absurd rfl h
  · rcases x with ⟨_ | k, n⟩
    · exact .inl ⟨_, fun _ => rfl⟩
    · simp only [findSoh]
      split_ifs
      · exact .inl ⟨_, fun _ => rfl⟩
      · exact .inr ⟨(_, _), fun _ => rfl⟩

theorem Stable.expect {p : Int} {c : UInt8} {bad : MessageReader}
    {next : Bytes → Result MessageReader} (h : Stable next) :
    Stable fun mem => expect mem p c bad (next mem) :=
  (Stable.byteAt p).bind fun _ => h.ite (.const _)

theorem stable_initBody (size b n : Nat) : Stable fun mem => initBody mem size b n := by
  have htype (checksum : Int) : Stable fun mem =>
      readMsgType checksum (mem.drop (b + 4)) (b + 4 : Nat) :=
    (stable_readMsgType checksum _).drop _
  unfold initBody
  refine (Stable.const _).ite (Stable.expect (Stable.expect ((Stable.const _).ite
    (Stable.expect (Stable.expect ((htype _).bind fun o => ?_))))))
  cases o with
  | none => exact .const _
  | some e => exact .const _

theorem stable_initLength (size b : Nat) : Stable fun mem => initLength mem size b := by
  unfold initLength
  refine (Stable.const _).ite (Stable.expect
    (((stable_readBodyLength size _ 0).drop _).bind fun o => ?_))
  cases o with
  | incomplete => exact .const _
  | invalid => exact .const _
  | found en => exact stable_initBody _ _ _

theorem stable_messageReader (size : Nat) : Stable fun mem => messageReader mem size := by
  unfold messageReader
  refine ((stable_skipPrefix size 9).drop 9).bind fun o => ?_
  cases o with
  | incomplete => exact .const _
  | invalid => exact .const _
  | found b => exact stable_initLength _ _

theorem stable_asString (v : FieldValue) : Stable fun mem => asString mem v := by
  unfold asString
  exact (Stable.const _).ite (.span _ _)

theorem stable_increment (r : MessageReader) (i : ConstIterator) :
    Stable fun mem => increment mem r i := by
  unfold increment
  dsimp only
  refine ((stable_scanTag 0 0).suffix _).bind fun x => (Stable.const _).ite
    ((Stable.const _).ite (((stable_findSoh _ 0).suffix _).bind fun len => ?_))
  split_ifs
  · exact (Stable.span _ _).bind fun _ => ((stable_scanDataTag 0 0).suffix _).bind fun _ => .const _
  · exact .const _

theorem stable_findIf (r : MessageReader) (tag : Int) (last : ConstIterator) (fuel : Nat)
    (i : ConstIterator) : Stable fun mem => findIf mem r tag last fuel i := by
  induction fuel generalizing i with
  | zero => exact .const _
  | succ fuel ih => exact (Stable.const _).ite ((stable_increment r i).bind ih)

theorem stable_findWithHint (r : MessageReader) (tag : Int) (i : ConstIterator) :
    Stable fun mem => findWithHint mem r tag i := by
  unfold findWithHint
  exact (stable_findIf r tag _ _ i).bind fun j => (Stable.const _).ite
    ((stable_findIf r tag i _ _).bind fun k => (Stable.const _).ite (.const _))

theorem stable_asInt (v : FieldValue) : Stable fun mem => asInt mem v := by
  unfold asInt
  refine (Stable.span _ _).bind fun s => ?_
  cases s with
  | nil => exact .const _
  | cons c cs => exact (Stable.const _).ite (.const _)

theorem stable_asTimestamp (v : FieldValue) : Stable fun mem => asTimestamp mem v := by
  unfold asTimestamp
  exact ((Stable.span _ _).bind fun _ => .const _).ite (.const _)

theorem stable_asDecimal (v : FieldValue) : Stable fun mem => asDecimal mem v :=
  (Stable.span _ _).bind fun _ => .const _

end Stability

section Exceptions

theorem unthrown_skipPrefix (size : Nat) (cs : Bytes) (b : Nat) :
    Unthrown (skipPrefix size cs b) := by
  fun_induction skipPrefix size cs b with
  | case6 _ _ _ _ _ _ ih => exact ih
  | _ => exact fun _ => nofun

theorem unthrown_readBodyLength (size : Nat) (cs : Bytes) (b n : Nat) :
    Unthrown (readBodyLength size cs b n) := by
  fun_induction readBodyLength size cs b n with
  | case6 _ _ _ _ _ _ _ ih => exact ih
  | _ => exact fun _ => nofun

theorem unthrown_readMsgType (checksum p : Int) (cs : Bytes) :
    Unthrown (readMsgType checksum cs p) := by
  fun_induction readMsgType checksum cs p with
  | case4 _ _ _ _ _ ih => exact ih
  | _ => exact fun _ => nofun

theorem Unthrown.expect {p : Int} {c : UInt8} {bad : MessageReader} {next : Result MessageReader}
    (h : Unthrown next) : Unthrown (expect mem p c bad next) := by
  refine (Unthrown.byteAt mem p).bind fun d _ => ?_
  split_ifs
  · exact h
  · exact .ok _

theorem unthrown_initBody (mem : Bytes) (size b n : Nat) : Unthrown (initBody mem size b n) := by
  unfold initBody
  dsimp only
  split_ifs
  · exact .ok _
  · exact Unthrown.expect (Unthrown.expect (.ok _))
  · refine Unthrown.expect (Unthrown.expect (Unthrown.expect (Unthrown.expect
      ((unthrown_readMsgType _ _ _).bind fun o _ => ?_))))
    cases o with
    | none => exact .ok _
    | some e => exact .ok _

theorem unthrown_messageReader (mem : Bytes) (size : Nat) :
    Unthrown (messageReader mem size) := by
  refine (unthrown_skipPrefix _ _ _).bind fun o _ => ?_
  cases o with
  | incomplete => exact .ok _
  | invalid => exact .ok _
  | found b =>
    dsimp only
    unfold initLength
    split_ifs
    · exact .ok _
    refine Unthrown.expect ((unthrown_readBodyLength _ _ _ _).bind fun o _ => ?_)
    cases o with
    | incomplete => exact .ok _
    | invalid => exact .ok _
    | found en => exact unthrown_initBody _ _ _ _

end Exceptions
end Hffix

namespace FixMessage
open Hffix
variable {mem : Bytes} {size : Nat}

theorem stable_commandOf (size : Nat) : Stable fun mem => commandOf mem size := by
  unfold commandOf
  exact (stable_messageReader size).bind fun r => (stable_asString _).ite (.const _)

theorem unthrown_commandOf (mem : Bytes) (size : Nat) : Unthrown (commandOf mem size) := by
  refine (unthrown_messageReader mem size).bind fun r hr => ?_
  rcases messageReader_ok hr with rfl | rfl | ⟨p, digits, checksum, e, rfl, hlayout⟩
  · exact .ok _
  · exact .ok _
  · obtain ⟨ts, -, -, -, rfl⟩ := hlayout.typeEnd
    change Unthrown (asString mem
      ⟨(p + digits.length + 4 + 3 : Nat), (p + digits.length + 8 + ts.length : Nat)⟩)
    rw [asString, if_neg (by dsimp only; omega)]
    exact .span _ _ _

section Readings
variable {α : Type}

theorem stable_logField {convert : Bytes → FieldValue → Result α} (shouldLog : Bool)
    (reader : MessageReader) (tag : Int) (h : ∀ v, Stable fun mem => convert mem v)
    (i : ConstIterator) : Stable fun mem => logField shouldLog mem reader tag convert i := by
  unfold logField
  refine (stable_findWithHint reader tag i).bind fun o => ?_
  cases o with
  | none => exact .const _
  | some j =>
    exact ((stable_increment reader j).bind fun k =>
      ((h j.current.value).map logged rfl).bind fun _ => .const _).ite (.const _)

theorem stable_logonFields (shouldLog : Bool) (reader : MessageReader) :
    Stable fun mem => logonFields shouldLog mem reader := by
  unfold logonFields
  refine (stable_logField shouldLog reader 49 stable_asString _).bind fun i =>
    (stable_logField shouldLog reader 8 stable_asString i).bind fun i =>
    (stable_logField shouldLog reader 34 stable_asInt i).bind fun i =>
    (stable_findWithHint reader 52 i).bind fun o => ?_
  cases o with
  | none => exact .const _
  | some j =>
    exact (stable_increment reader j).bind fun _ => (stable_asTimestamp _).bind fun _ => .const _

theorem stable_newOrderSingleFields (shouldLog : Bool) (reader : MessageReader) :
    Stable fun mem => newOrderSingleFields shouldLog mem reader := by
  unfold newOrderSingleFields
  refine (stable_logField shouldLog reader 54 (fun _ => .byteAt _) _).bind fun i =>
    (stable_logField shouldLog reader 55 stable_asString i).bind fun i =>
    (stable_logField shouldLog reader 38 stable_asInt i).bind fun i =>
    (stable_findWithHint reader 44 i).bind fun o => ?_
  cases o with
  | none => exact .const _
  | some j => exact (stable_asDecimal _).bind fun _ => .const _

theorem stable_readingOf (type : Bytes) {fields : Bytes → MessageReader → Result Unit}
    (h : ∀ r, Stable fun mem => fields mem r) (size : Nat) :
    Stable fun mem => readingOf type fields mem size := by
  -- the handler makes a reading of each exception and of nothing else
  unfold readingOf
  refine (stable_messageReader size).bind fun r => ?_
  refine Stable.ite (Stable.map ?_ caught rfl) (.const _)
  exact (stable_asString _).bind fun value => (Stable.const _).bind fun _ =>
    ((h r).bind fun _ => .const _).ite (.const _)

theorem stable_logonReading (shouldLog : Bool) (size : Nat) :
    Stable fun mem => logonReading shouldLog mem size :=
  stable_readingOf _ (stable_logonFields shouldLog) size

theorem stable_newOrderSingleReading (shouldLog : Bool) (size : Nat) :
    Stable fun mem => newOrderSingleReading shouldLog mem size :=
  stable_readingOf _ (stable_newOrderSingleFields shouldLog) size

end Readings
end FixMessage
end Warhead
