import WarheadFix.Server.Decision
import WarheadFix.Shared.FieldSearch

/-! The field searches of the two message handlers. Each starts at the field after the last one
found, so that a message whose fields do not line up is harmless only as long as the searches
find what they look for. -/

namespace Warhead.FixMessage
open Lib Hffix

def searchedTags (key : Bytes) : List Int :=
  if key = ascii "A" then [49, 8, 34, 52] else [54, 55, 38, 44]

def searches (shouldLog : Bool) (mem : Bytes) (r : MessageReader) :
    List Int → Result ConstIterator → List (Result (Option ConstIterator))
  | [], _ => []
  | tag :: tags, hint =>
    let search : Result (Option ConstIterator) := do findWithHint mem r tag (← hint)
    search :: searches shouldLog mem r tags (do
      match ← search with
      | none => hint
      | some j => if shouldLog then increment mem r j else pure j)

/-- The hint after a field that was found: an iterator moves on when the line is logged. -/
def NextHint (shouldLog : Bool) (mem : Bytes) (r : MessageReader) (j k : ConstIterator) : Prop :=
  if shouldLog then FieldAt mem r.messageEnd (j.current.value.end_ + 1) k else k = j

def InOrder (shouldLog : Bool) (mem : Bytes) (r : MessageReader) :
    List Int → ConstIterator → Prop
  | [], _ => True
  | tag :: tags, i => ∃ j, FirstAt mem r tag i j ∧
      (tags = [] ∨ ∃ k, NextHint shouldLog mem r j k ∧ InOrder shouldLog mem r tags k)

def AllReturn (rs : List (Result (Option ConstIterator))) : Prop := ∀ s ∈ rs, ∃ o, s = .ok o

section Searches
variable {mem : Bytes} {r : MessageReader} {shouldLog : Bool} {tag : Int} {tags : List Int}
  {i : ConstIterator}

theorem allReturn_cons {s : Result (Option ConstIterator)}
    {rs : List (Result (Option ConstIterator))} :
    AllReturn (s :: rs) ↔ (∃ o, s = .ok o) ∧ AllReturn rs := List.forall_mem_cons

theorem searches_none (h : findWithHint mem r tag i = .ok none) :
    searches shouldLog mem r (tag :: tags) (.ok i) =
      .ok none :: searches shouldLog mem r tags (.ok i) := by
  have hsearch : ((Except.ok i : Result ConstIterator) >>= findWithHint mem r tag) = .ok none := h
  rw [searches, hsearch]
  rfl

theorem searches_some {j : ConstIterator} (h : findWithHint mem r tag i = .ok (some j)) :
    searches shouldLog mem r (tag :: tags) (.ok i) =
      .ok (some j) :: searches shouldLog mem r tags
        (if shouldLog then increment mem r j else .ok j) := by
  have hsearch : ((Except.ok i : Result ConstIterator) >>= findWithHint mem r tag) =
      .ok (some j) := h
  rw [searches, hsearch]
  rfl

theorem allReturn_of_ends (hsize : r.bufferSize = mem.length) (hway : OnWay mem r i)
    (hends : Ends (increment mem r) (AtEnd r) i) :
    AllReturn (searches shouldLog mem r tags (.ok i)) := by
  induction tags generalizing i with
  | nil => exact fun s hs => absurd hs List.not_mem_nil
  | cons tag tags ih =>
    obtain ⟨o, ho, hfound⟩ := findWithHint_of_ends hsize tag hway hends
    cases o with
    | none =>
      rw [searches_none ho, allReturn_cons]
      exact ⟨⟨none, rfl⟩, ih hway hends⟩
    | some j =>
      obtain ⟨hjway, hjends, hjend⟩ := hfound j rfl
      rw [searches_some ho, allReturn_cons]
      refine ⟨⟨some j, rfl⟩, ?_⟩
      cases shouldLog with
      | false => exact ih hjway hjends
      | true =>
        -- The field found is not the CheckSum, so there is a field after it.
        obtain ⟨k, hk, hkends⟩ := hjends.advance hjend
        rw [if_pos rfl, hk]
        exact ih (hjway.step hjend hk) hkends

theorem not_allReturn_of_error {e : Fault Exn} (hne : tags ≠ []) :
    ¬AllReturn (searches shouldLog mem r tags (.error e)) := by
  cases tags with
  | nil => exact absurd rfl hne
  | cons tag tags =>
    intro h
    obtain ⟨o, ho⟩ := (allReturn_cons.mp h).1
    cases ho

theorem not_allReturn_of_findWithHint {e : Fault Exn} (h : findWithHint mem r tag i = .error e) :
    ¬AllReturn (searches shouldLog mem r (tag :: tags) (.ok i)) := by
  intro hall
  obtain ⟨o, ho⟩ := (allReturn_cons.mp hall).1
  have hsearch : findWithHint mem r tag i = .ok o := ho
  cases h.symm.trans hsearch

theorem allReturn_rest_iff (hsoh : (byteAt mem (r.messageEnd - 1) : Result UInt8) = .ok SOH)
    (hway : OnWay mem r i) {j : ConstIterator} (hj : FirstAt mem r tag i j)
    (hrest : ∀ {k}, OnWay mem r k →
      (AllReturn (searches shouldLog mem r tags (.ok k)) ↔ InOrder shouldLog mem r tags k)) :
    AllReturn (searches shouldLog mem r tags (if shouldLog then increment mem r j else .ok j)) ↔
      tags = [] ∨ ∃ k, NextHint shouldLog mem r j k ∧ InOrder shouldLog mem r tags k := by
  by_cases hlast : tags = []
  · subst hlast
    exact ⟨fun _ => .inl rfl, fun _ s hs => absurd hs List.not_mem_nil⟩
  rw [or_iff_right hlast]
  have hjway : OnWay mem r j := hway.of_firstAt hsoh hj
  cases shouldLog with
  | false =>
    have hhint : ∀ k, NextHint false mem r j k ↔ k = j := fun _ => Iff.rfl
    simp only [hhint, exists_eq_left]
    exact hrest hjway
  | true =>
    have hhint : ∀ k, NextHint true mem r j k ↔ increment mem r j = .ok k :=
      fun k => (increment_eq_ok_iff hsoh).symm
    rw [if_pos rfl]
    cases hk : increment mem r j with
    | error e =>
      simp only [hhint, hk, reduceCtorEq, false_and, exists_false, iff_false]
      exact not_allReturn_of_error hlast
    | ok k =>
      simp only [hhint, hk, Except.ok.injEq, exists_eq_left']
      exact hrest (hjway.step (hj.not_atEnd hsoh) hk)

theorem allReturn_iff_inOrder (hsize : r.bufferSize = mem.length)
    (hsoh : (byteAt mem (r.messageEnd - 1) : Result UInt8) = .ok SOH)
    (hnot : ¬LinesUp mem r r.begin_) (hway : OnWay mem r i) :
    AllReturn (searches shouldLog mem r tags (.ok i)) ↔ InOrder shouldLog mem r tags i := by
  induction tags generalizing i with
  | nil => exact ⟨fun _ => trivial, fun _ s hs => absurd hs List.not_mem_nil⟩
  | cons tag tags ih =>
    have hreturns : ∀ {o}, findWithHint mem r tag i = .ok o ↔
        ∃ j, o = some j ∧ FirstAt mem r tag i j :=
      findWithHint_of_not_linesUp hsoh hsize tag hway hnot
    have hnext : ∀ {j}, FirstAt mem r tag i j →
        (AllReturn (searches shouldLog mem r (tag :: tags) (.ok i)) ↔
          (tags = [] ∨ ∃ k, NextHint shouldLog mem r j k ∧ InOrder shouldLog mem r tags k)) := by
      intro j hj
      have hfound : findWithHint mem r tag i = .ok (some j) := hreturns.mpr ⟨j, rfl, hj⟩
      rw [searches_some hfound, allReturn_cons, and_iff_right ⟨_, rfl⟩]
      exact allReturn_rest_iff hsoh hway hj fun hk => ih hk
    constructor
    · intro h
      obtain ⟨o, ho⟩ := (allReturn_cons.mp h).1
      obtain ⟨j, -, hj⟩ := hreturns.mp ho
      exact ⟨j, hj, (hnext hj).mp h⟩
    · rintro ⟨j, hj, hrest⟩
      exact (hnext hj).mpr hrest

theorem allReturn_iff (hsize : r.bufferSize = mem.length)
    (hsoh : (byteAt mem (r.messageEnd - 1) : Result UInt8) = .ok SOH) :
    AllReturn (searches shouldLog mem r tags (.ok r.begin_)) ↔
      LinesUp mem r r.begin_ ∨ InOrder shouldLog mem r tags r.begin_ := by
  have hbegin : OnWay mem r r.begin_ := ⟨0, rfl⟩
  by_cases hline : LinesUp mem r r.begin_
  · have hends := (linesUp_iff hsoh).mp hline
    exact ⟨fun _ => .inl hline, fun _ => allReturn_of_ends hsize hbegin hends⟩
  · rw [or_iff_right hline]
    exact allReturn_iff_inOrder hsize hsoh hline hbegin

/-! ## The handlers -/

theorem logField_ok {α : Type} {convert : Bytes → FieldValue → Result α} {k : ConstIterator}
    (h : logField shouldLog mem r tag convert i = .ok k) :
    AllReturn (searches shouldLog mem r tags (.ok k)) →
      AllReturn (searches shouldLog mem r (tag :: tags) (.ok i)) := by
  intro hrest
  obtain ⟨o, ho, h⟩ := bind_eq_ok.mp h
  cases o with
  | none =>
    rw [searches_none ho, allReturn_cons]
    obtain rfl : i = k := Except.ok.inj h
    exact ⟨⟨none, rfl⟩, hrest⟩
  | some j =>
    rw [searches_some ho, allReturn_cons]
    refine ⟨⟨some j, rfl⟩, ?_⟩
    cases shouldLog with
    | false =>
      obtain rfl : j = k := Except.ok.inj h
      exact hrest
    | true =>
      obtain ⟨k', hk', h⟩ := bind_eq_ok.mp h
      obtain ⟨-, -, h⟩ := bind_eq_ok.mp h
      obtain rfl : k' = k := Except.ok.inj h
      rw [if_pos rfl, hk']
      exact hrest

theorem allReturn_singleton {o : Option ConstIterator} (h : findWithHint mem r tag i = .ok o) :
    AllReturn (searches shouldLog mem r [tag] (.ok i)) := by
  intro s hs
  rw [List.mem_singleton.mp hs]
  exact ⟨o, h⟩

theorem allReturn_of_logonFields (h : logonFields shouldLog mem r = .ok ()) :
    AllReturn (searches shouldLog mem r (searchedTags (ascii "A")) (.ok r.begin_)) := by
  obtain ⟨i₁, h₁, h⟩ := bind_eq_ok.mp h
  obtain ⟨i₂, h₂, h⟩ := bind_eq_ok.mp h
  obtain ⟨i₃, h₃, h⟩ := bind_eq_ok.mp h
  obtain ⟨o, ho, -⟩ := bind_eq_ok.mp h
  rw [searchedTags, if_pos rfl]
  apply logField_ok h₁
  apply logField_ok h₂
  apply logField_ok h₃
  exact allReturn_singleton ho

theorem allReturn_of_newOrderSingleFields (h : newOrderSingleFields shouldLog mem r = .ok ()) :
    AllReturn (searches shouldLog mem r (searchedTags (ascii "D")) (.ok r.begin_)) := by
  obtain ⟨i₁, h₁, h⟩ := bind_eq_ok.mp h
  obtain ⟨i₂, h₂, h⟩ := bind_eq_ok.mp h
  obtain ⟨i₃, h₃, h⟩ := bind_eq_ok.mp h
  obtain ⟨o, ho, -⟩ := bind_eq_ok.mp h
  rw [searchedTags, if_neg (by decide)]
  apply logField_ok h₁
  apply logField_ok h₂
  apply logField_ok h₃
  exact allReturn_singleton ho

/-- The searches stay inside the buffer exactly if the fields line up with the CheckSum, or if
those searched for stand in the message in the order of the searches. -/
theorem searches_return_iff (shouldLog : Bool) {status : AuthStatus} {rpos : Nat} {key : Bytes}
    (h : AuthSession.decisionOf status rpos mem.length mem = .ok (.run key)) :
    ∃ r, messageReader mem mem.length = .ok r ∧ r.isValid = true ∧ r.isComplete = true ∧
      (AllReturn (searches shouldLog mem r (searchedTags key) (.ok r.begin_)) ↔
        LinesUp mem r r.begin_ ∨ InOrder shouldLog mem r (searchedTags key) r.begin_) := by
  obtain ⟨-, hcmd, hstatus⟩ := AuthSession.decisionOf_run.mp h
  have hkey : key ≠ [] := by
    rintro rfl
    cases hstatus
  obtain ⟨p, digits, checksum, e, hr, hlayout, -⟩ := commandOf_ok hcmd hkey
  refine ⟨_, hr, rfl, rfl, ?_⟩
  apply allReturn_iff rfl
  change byteAt mem (checksum + 6 + 1 - 1) = .ok SOH
  rw [add_sub_cancel_right]
  exact hlayout.messageEnd

end Searches

def bareLogon : Bytes :=
  ascii "8=FIX.5.0" ++ SOH :: ascii "9=5" ++ SOH :: ascii "35=A" ++ SOH :: ascii "10=000" ++ [SOH]

theorem searches_return_iff_logon :
    AuthSession.decisionOf .notAuthed 0 bareLogon.length bareLogon = .ok (.run (ascii "A")) ∧
      ∃ r, messageReader bareLogon bareLogon.length = .ok r ∧
        AllReturn (searches true bareLogon r (searchedTags (ascii "A")) (.ok r.begin_)) := by
  have h : AuthSession.decisionOf .notAuthed 0 bareLogon.length bareLogon =
      .ok (.run (ascii "A")) := by decide +kernel
  refine ⟨h, ?_⟩
  obtain ⟨r, hr, -, -, hiff⟩ := searches_return_iff true h
  refine ⟨r, hr, hiff.mpr (.inl ?_)⟩
  have hread : messageReader bareLogon bareLogon.length =
      .ok (.complete bareLogon.length 14 19 18) := by decide +kernel
  obtain rfl := Except.ok.inj (hread.symm.trans hr)
  -- The field after the MsgType is the CheckSum.
  have htext : suffix bareLogon 19 = ascii "10" ++ 61 :: (ascii "000" ++ SOH :: []) := by
    decide +kernel
  have htag : IsTag (ascii "10") := show ∀ c ∈ ascii "10", c ≠ 61 ∧ c ≠ SOH by
    decide +kernel
  have hfield : FieldAt bareLogon 26 19 _ :=
    .plain htext htag (by decide) (by decide) (by decide)
  exact .field hfield (.last rfl)

def overlongData : Bytes :=
  ascii "8=FIX.5.0" ++ SOH :: ascii "9=16" ++ SOH :: ascii "35=A" ++ SOH :: ascii "95=99" ++
    SOH :: ascii "96=x" ++ SOH :: ascii "10=000" ++ [SOH]

/-- The first search goes over the data field and reads on where the buffer has ended. -/
theorem searches_overlongData :
    AuthSession.decisionOf .notAuthed 0 overlongData.length overlongData =
        .ok (.run (ascii "A")) ∧
      ∃ r, messageReader overlongData overlongData.length = .ok r ∧ r.isValid = true ∧
        r.isComplete = true ∧ ∀ shouldLog,
          ¬AllReturn (searches shouldLog overlongData r (searchedTags (ascii "A"))
            (.ok r.begin_)) := by
  refine ⟨by decide +kernel, .complete overlongData.length 15 31 19, by decide +kernel, rfl, rfl, ?_⟩
  intro shouldLog
  have hfirst : findWithHint overlongData (.complete overlongData.length 15 31 19) 49
      ⟨15, ⟨35, ⟨18, 19⟩⟩⟩ = .error .undefined := by decide +kernel
  rw [searchedTags, if_pos rfl]
  exact not_allReturn_of_findWithHint hfirst

/-- A length near `2 ^ 64` moves the pointer back, and the fields come round again. -/
def endlessData : Bytes :=
  ascii "8=FIX.5.0" ++ SOH :: ascii "9=33" ++ SOH :: ascii "35=A" ++ SOH ::
    ascii "95=18446744073709551588" ++ SOH :: ascii "96=" ++ SOH :: ascii "10=000" ++ [SOH]

example : findWithHint endlessData (.complete endlessData.length 15 48 19) 49
    ⟨15, ⟨35, ⟨18, 19⟩⟩⟩ = .error .diverges := by decide +kernel

end Warhead.FixMessage
