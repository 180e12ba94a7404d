import WarheadFix.Server.HandlerSearches
import WarheadFix.Server.StreamCuts
import WarheadFix.Shared.FieldRoundTrip

/-! Requests made by the message writer. Their fields line up and their values lie inside the
message, so that a session accepts each of them, its own test messages among them. -/

namespace Warhead
open Lib Hffix MessageWriter

namespace Hffix
variable {mem : Bytes} {r : MessageReader} {fuel : Nat} {i j : ConstIterator}
  {is : List ConstIterator}

theorem mem_iterators {n : Nat} (h : iterators mem r fuel i = .ok is)
    (hj : Reach (increment mem r) (AtEnd r) n i j) (hend : ¬AtEnd r j) : j ∈ is := by
  induction fuel generalizing n i is with
  | zero => cases h
  | succ fuel ih =>
    unfold iterators at h
    by_cases hi : i.buffer = r.end_.buffer
    · cases n with
      | zero =>
        rw [show i = j from hj] at hi
        exact absurd hi hend
      | succ n => exact absurd hi hj.1
    · rw [if_neg hi] at h
      obtain ⟨k, hk, h⟩ := bind_eq_ok.mp h
      obtain ⟨ks, hks, h⟩ := bind_eq_ok.mp h
      cases h
      cases n with
      | zero =>
        rw [show i = j from hj]
        exact List.mem_cons_self ..
      | succ n =>
        obtain ⟨-, k', hk', hj⟩ := hj
        obtain rfl := Except.ok.inj (hk.symm.trans hk')
        exact List.mem_cons_of_mem _ (ih hks hj)

theorem ends_of_iterators (h : iterators mem r fuel i = .ok is) :
    Ends (increment mem r) (AtEnd r) i := by
  induction fuel generalizing i is with
  | zero => cases h
  | succ fuel ih =>
    unfold iterators at h
    by_cases hi : i.buffer = r.end_.buffer
    · exact ⟨0, i, rfl, hi⟩
    · rw [if_neg hi] at h
      obtain ⟨k, hk, h⟩ := bind_eq_ok.mp h
      obtain ⟨ks, hks, -⟩ := bind_eq_ok.mp h
      have hstep : Reach (increment mem r) (AtEnd r) 1 i k := ⟨hi, k, hk, rfl⟩
      exact (ih hks).of_reach hstep

def Lies (mem : Bytes) (v : FieldValue) : Prop :=
  ∃ b s rest, v = ⟨b, b + (s.length : Nat)⟩ ∧ suffix mem b = s ++ SOH :: rest

theorem FieldEntry.At.lies {entry : FieldEntry} (h : entry.At mem i) : Lies mem i.current.value := by
  obtain ⟨-, b, rest, hvalue, hsuffix⟩ := h
  exact ⟨b, _, rest, hvalue, hsuffix⟩

section Conversions
variable {v : FieldValue}

theorem Lies.span (h : Lies mem v) : ∃ s, (span mem v.begin_ v.end_ : Result Bytes) = .ok s ∧
    v.begin_ ≤ v.end_ := by
  obtain ⟨b, s, rest, rfl, hsuffix⟩ := h
  exact ⟨s, span_of_suffix hsuffix, by dsimp only; omega⟩

theorem Lies.asString (h : Lies mem v) : ∃ s, asString mem v = .ok s := by
  obtain ⟨s, hs, hle⟩ := h.span
  exact ⟨s, asString_of_span hle hs⟩

theorem Lies.asChar (h : Lies mem v) : ∃ c, asChar mem v = .ok c := by
  obtain ⟨b, s, rest, rfl, hsuffix⟩ := h
  unfold Hffix.asChar byteAt
  rw [hsuffix]
  cases s with
  | nil => exact ⟨SOH, rfl⟩
  | cons c s => exact ⟨c, rfl⟩

theorem Lies.asInt (h : Lies mem v) : ∃ n, asInt mem v = .ok n := by
  obtain ⟨s, hs, -⟩ := h.span
  unfold Hffix.asInt
  rw [hs]
  simp only [Bind.bind, Except.bind]
  split
  · exact ⟨_, rfl⟩
  · split_ifs
    · exact ⟨_, rfl⟩
    · exact ⟨_, rfl⟩

theorem Lies.asDecimal (h : Lies mem v) : ∃ d, asDecimal mem v = .ok d := by
  obtain ⟨s, hs, -⟩ := h.span
  unfold Hffix.asDecimal
  rw [hs]
  exact ⟨_, rfl⟩

theorem Lies.asTimestamp (h : Lies mem v) : ∃ t, asTimestamp mem v = .ok t := by
  obtain ⟨s, hs, -⟩ := h.span
  unfold Hffix.asTimestamp
  rw [hs]
  split_ifs
  · exact ⟨true, rfl⟩
  · exact ⟨false, rfl⟩

end Conversions
end Hffix

namespace FixMessage
variable {mem : Bytes} {r : MessageReader} {i : ConstIterator}

structure WalksThrough (mem : Bytes) (r : MessageReader) : Prop where
  bufferSize : r.bufferSize = mem.length
  ends : Ends (increment mem r) (AtEnd r) r.begin_
  lies : ∀ j, OnWay mem r j → ¬AtEnd r j → Lies mem j.current.value

def Hint (mem : Bytes) (r : MessageReader) (i : ConstIterator) : Prop :=
  OnWay mem r i ∧ Ends (increment mem r) (AtEnd r) i

theorem WalksThrough.found (h : WalksThrough mem r) (tag : Int) (hi : Hint mem r i) :
    ∃ o, findWithHint mem r tag i = .ok o ∧
      ∀ j, o = some j → Hint mem r j ∧ Lies mem j.current.value ∧
        ∃ k, increment mem r j = .ok k ∧ Hint mem r k := by
  obtain ⟨o, ho, hfound⟩ := findWithHint_of_ends h.bufferSize tag hi.1 hi.2
  refine ⟨o, ho, fun j hj => ?_⟩
  obtain ⟨hway, hends, hend⟩ := hfound j hj
  obtain ⟨k, hk, hkends⟩ := hends.advance hend
  exact ⟨⟨hway, hends⟩, h.lies j hway hend, k, hk, hway.step hend hk, hkends⟩

theorem WalksThrough.logField {α : Type} {convert : Bytes → FieldValue → Result α}
    (h : WalksThrough mem r) (shouldLog : Bool) (tag : Int) (hi : Hint mem r i)
    (hconvert : ∀ v, Lies mem v → ∃ a, convert mem v = .ok a) :
    ∃ k, logField shouldLog mem r tag convert i = .ok k ∧ Hint mem r k := by
  obtain ⟨o, ho, hfound⟩ := h.found tag hi
  unfold FixMessage.logField
  rw [ho]
  simp only [Bind.bind, Except.bind]
  cases o with
  | none => exact ⟨i, rfl, hi⟩
  | some j =>
    obtain ⟨hj, hlies, k, hk, hhint⟩ := hfound j rfl
    obtain ⟨a, ha⟩ := hconvert _ hlies
    cases shouldLog with
    | false => exact ⟨j, rfl, hj⟩
    | true =>
      simp only [if_true]
      rw [hk, ha]
      exact ⟨k, rfl, hhint⟩

theorem WalksThrough.start (h : WalksThrough mem r) : Hint mem r r.begin_ := ⟨⟨0, rfl⟩, h.ends⟩

theorem WalksThrough.logonFields (h : WalksThrough mem r) (shouldLog : Bool) :
    logonFields shouldLog mem r = .ok () := by
  obtain ⟨i₁, h₁, hi₁⟩ := h.logField shouldLog 49 h.start fun _ => Lies.asString
  obtain ⟨i₂, h₂, hi₂⟩ := h.logField shouldLog 8 hi₁ fun _ => Lies.asString
  obtain ⟨i₃, h₃, hi₃⟩ := h.logField shouldLog 34 hi₂ fun _ => Lies.asInt
  obtain ⟨o, ho, hfound⟩ := h.found 52 hi₃
  unfold FixMessage.logonFields
  rw [h₁]
  simp only [Bind.bind, Except.bind]
  rw [h₂]
  simp only []
  rw [h₃]
  simp only []
  rw [ho]
  cases o with
  | none => rfl
  | some j =>
    obtain ⟨-, hlies, k, hk, -⟩ := hfound j rfl
    obtain ⟨t, ht⟩ := hlies.asTimestamp
    simp only []
    rw [hk, ht]
    rfl

theorem WalksThrough.newOrderSingleFields (h : WalksThrough mem r) (shouldLog : Bool) :
    newOrderSingleFields shouldLog mem r = .ok () := by
  obtain ⟨i₁, h₁, hi₁⟩ := h.logField shouldLog 54 h.start fun _ => Lies.asChar
  obtain ⟨i₂, h₂, hi₂⟩ := h.logField shouldLog 55 hi₁ fun _ => Lies.asString
  obtain ⟨i₃, h₃, hi₃⟩ := h.logField shouldLog 38 hi₂ fun _ => Lies.asInt
  obtain ⟨o, ho, hfound⟩ := h.found 44 hi₃
  unfold FixMessage.newOrderSingleFields
  rw [h₁]
  simp only [Bind.bind, Except.bind]
  rw [h₂]
  simp only []
  rw [h₃]
  simp only []
  rw [ho]
  cases o with
  | none => rfl
  | some j =>
    obtain ⟨-, hlies, -⟩ := hfound j rfl
    obtain ⟨d, hd⟩ := hlies.asDecimal
    simp only []
    rw [hd]
    rfl

end FixMessage

/-- A message for the writer: a MsgType, and fields that can be told apart. -/
structure Outgoing where
  type : Bytes
  entries : List FieldEntry
  sendable : Sendable type entries
  wellFormed : ∀ entry ∈ entries, entry.WellFormed

namespace Outgoing

def frame (m : Outgoing) : Frame := m.sendable.frame

def text (m : Outgoing) : Bytes := fixText m.frame

theorem write_text (m : Outgoing) (room : Nat) :
    write room (ascii "FIX.5.0") m.type m.entries =
      if room < m.text.length then .error (.thrown .outOfRange) else .ok m.text :=
  write_eq m.sendable room _

theorem text_of_write {m : Outgoing} {room : Nat} {text : Bytes}
    (h : write room (ascii "FIX.5.0") m.type m.entries = .ok text) : m.text = text := by
  rw [m.write_text] at h
  split_ifs at h
  exact Except.ok.inj h

theorem walksThrough (m : Outgoing) {tail : Bytes} (hsize : (m.text ++ tail).length < 2 ^ 63) :
    ∃ r, messageReader (m.text ++ tail) (m.text ++ tail).length = .ok r ∧
      FixMessage.WalksThrough (m.text ++ tail) r := by
  have hle : m.text.length ≤ (m.text ++ tail).length := by
    rw [List.length_append]
    omega
  obtain ⟨r, is, hfinds⟩ := finds_frame m.sendable m.wellFormed isVersion_fix50 tail hle hsize
  have hiterators : iterators (m.text ++ tail) r _ r.begin_ = .ok (r.begin_ :: is) :=
    hfinds.iterators
  refine ⟨r, hfinds.reader, hfinds.bufferSize, ends_of_iterators hiterators, ?_⟩
  rintro j ⟨n, hn⟩ hend
  rcases List.mem_cons.mp (mem_iterators hiterators hn hend) with rfl | hj
  · exact hfinds.type.lies
  · have hall := hfinds.fields
    obtain ⟨k, hk, rfl⟩ := List.getElem_of_mem hj
    have hfield := hall.get hk (hall.length_eq ▸ hk)
    exact hfield.lies

theorem readingFor_text (m : Outgoing) {tail : Bytes} {status : AuthStatus}
    (hs : AuthSession.statusFor m.type = some status) (shouldLog : Bool)
    (hsize : (m.text ++ tail).length < 2 ^ 63) :
    FixMessage.readingFor m.type shouldLog (m.text ++ tail) (m.text ++ tail).length = .ok .read := by
  obtain ⟨r, hr, hwalks⟩ := m.walksThrough hsize
  have hle : m.text.length ≤ (m.text ++ tail).length := by
    rw [List.length_append]
    omega
  have hcmd : FixMessage.commandOf (m.text ++ tail) (m.text ++ tail).length = .ok m.type :=
    commandOf_fixText hle hsize
  rcases AuthSession.statusFor_eq_some hs with ⟨htype, -⟩ | ⟨htype, -⟩
  · rw [htype] at hcmd ⊢
    obtain ⟨r', hr', hreading⟩ := FixMessage.readingOf_of_commandOf
      (FixMessage.logonFields shouldLog) hcmd (by decide)
    obtain rfl := Except.ok.inj (hr.symm.trans hr')
    rw [hwalks.logonFields] at hreading
    rw [FixMessage.readingFor, if_pos rfl]
    exact hreading
  · rw [htype] at hcmd ⊢
    obtain ⟨r', hr', hreading⟩ := FixMessage.readingOf_of_commandOf
      (FixMessage.newOrderSingleFields shouldLog) hcmd (by decide)
    obtain rfl := Except.ok.inj (hr.symm.trans hr')
    rw [hwalks.newOrderSingleFields] at hreading
    rw [FixMessage.readingFor, if_neg (by decide)]
    exact hreading

end Outgoing

namespace AuthSession

/-- The local array of the reply holds the end of a C string, and the reply fits a packet. -/
def Answers (env : Env) : Prop :=
  ∃ text, FixMessage.replyText env = .ok text ∧ 4096 + text.length < 10000000

theorem Answers.reply {env : Env} (h : Answers env) (mem : Bytes) :
    (FixMessage.reply env mem).isOk = true := by
  obtain ⟨text, htext, hlt⟩ := h
  unfold FixMessage.reply
  rw [htext]
  simp only [Bind.bind, Except.bind]
  rw [if_neg (by omega)]
  rfl

theorem accepts_text (m : Outgoing) {status : AuthStatus} {env : Env} {tail : Bytes}
    (hs : statusFor m.type = some status) (henv : m.type = ascii "A" → Answers env)
    (hsize : (m.text ++ tail).length < 2 ^ 63) : Accepts m.type env (m.text ++ tail) :=
  ⟨m.readingFor_text hs env.shouldLog hsize, fun hkey => (henv hkey).reply _⟩

theorem acceptsAll_text {messages : List (Outgoing × Env)} {mem : Bytes}
    (hlen : mem.length = 4096) (hmessages : ∀ m ∈ messages, (∃ status,
      statusFor m.1.type = some status) ∧ m.1.text.length ≤ 4096 ∧
        (m.1.type = ascii "A" → Answers m.2)) :
    AcceptsAll mem (messages.map fun m => (m.1.frame, m.2)) := by
  induction messages generalizing mem with
  | nil => trivial
  | cons m messages ih =>
    obtain ⟨⟨⟨status, hs⟩, hle, henv⟩, hrest⟩ := List.forall_mem_cons.mp hmessages
    have hnext : (m.1.text ++ mem.drop m.1.text.length).length = 4096 := by
      rw [List.length_append, List.length_drop, hlen]
      omega
    exact ⟨accepts_text m.1 hs henv (hnext.trans_lt (by decide)), ih hnext hrest⟩

theorem framed_of_texts {logon : Outgoing} {orders : List Outgoing} {es : List Event}
    (hlogon : logon.type = ascii "A") (horders : ∀ m ∈ orders, m.type = ascii "D")
    (hevents : ∀ e ∈ es, e ≠ .readError)
    (hreads : deliveries es = (logon :: orders).map Outgoing.text)
    (hlen : ∀ m ∈ logon :: orders, m.text.length ≤ 4096)
    (henv : ∀ env, (readEnvs es).head? = some env → Answers env) :
    Framed ((logon :: orders).map Outgoing.frame) (es.foldl advance system.start) := by
  have hframes : ((logon :: orders).map Outgoing.frame).map fixText =
      (logon :: orders).map Outgoing.text := by
    rw [List.map_map]
    rfl
  have hdue : Due .notAuthed ((logon :: orders).map Outgoing.frame) := by
    apply due_of_types hlogon
    intro f hf
    obtain ⟨m, hm, rfl⟩ := List.mem_map.mp hf
    exact horders m hm
  have hshort : ∀ data ∈ deliveries es, data.length ≤ 4096 := by
    intro data hdata
    rw [hreads] at hdata
    obtain ⟨m, hm, rfl⟩ := List.mem_map.mp hdata
    exact hlen m hm
  have hhandles := armed_start.handles hdue hevents hshort (hreads.trans hframes.symm)
  have hcount : (readEnvs es).length = (logon :: orders).length := by
    rw [length_readEnvs, hreads, List.length_map]
  cases henvs : readEnvs es with
  | nil =>
    rw [henvs] at hcount
    cases hcount
  | cons env envs =>
    have hzip : ((logon :: orders).map Outgoing.frame).zip (env :: envs) =
        ((logon :: orders).zip (env :: envs)).map fun m => (m.1.frame, m.2) := by
      rw [List.zip_map_left]
      rfl
    rw [henvs, hzip] at hhandles
    have hacc : AcceptsAll new.start.readBuffer.storage
        (((logon :: orders).zip (env :: envs)).map fun m => (m.1.frame, m.2)) := by
      apply acceptsAll_text armed_start.storage
      rw [List.zip_cons_cons, List.forall_mem_cons]
      refine ⟨⟨⟨.notAuthed, by rw [hlogon]; rfl⟩, hlen logon (List.mem_cons_self ..),
        fun _ => henv env (by rw [henvs]; rfl)⟩, ?_⟩
      rintro ⟨m, e⟩ hm
      have horder := (List.of_mem_zip hm).1
      have htype := horders m horder
      refine ⟨⟨.authed, by rw [htype]; rfl⟩, hlen m (List.mem_cons_of_mem _ horder), ?_⟩
      intro hA
      exact absurd (htype.symm.trans hA) (by decide)
    obtain ⟨runs, hruns, hmap⟩ := hhandles.handled hacc
    have hnil : new.start.handled = [] := rfl
    rw [hnil, List.nil_append] at hruns
    refine ⟨hhandles.waits.mpr hacc, ?_⟩
    have hfst : ((logon :: orders).zip (env :: envs)).map Prod.fst = logon :: orders :=
      List.map_fst_zip (by rw [← henvs, hcount])
    change (es.foldl advance ⟨new.start, none⟩).session.handled.map _ = _
    rw [hruns, hmap, List.map_map, List.map_map]
    conv_rhs => rw [← hfst, List.map_map]
    rfl

theorem map_handled_of_framed {messages : List Outgoing} {p : Process}
    (h : Framed (messages.map Outgoing.frame) p) :
    p.session.handled.map (fun r => (r.key, r.received)) =
      messages.map fun m => (m.type, m.text) := by
  rw [h.2, List.map_map]
  rfl

/-- A logon and orders as the writer wrote them, each delivered with one read, are handled one
after the other, whatever their fields are and whatever the write side does in between. -/
theorem written_stream_handled {logon : Outgoing} {orders : List Outgoing} {es : List Event}
    (hlogon : logon.type = ascii "A") (horders : ∀ m ∈ orders, m.type = ascii "D")
    (hevents : ∀ e ∈ es, e ≠ .readError)
    (hwritten : List.Forall₂ (fun (m : Outgoing) text => text.length ≤ 4096 ∧
      ∃ room, write room (ascii "FIX.5.0") m.type m.entries = .ok text)
      (logon :: orders) (deliveries es))
    (henv : ∀ env, (readEnvs es).head? = some env → Answers env) :
    (es.foldl advance system.start).failure = none ∧
      (es.foldl advance system.start).session.Armed ∧
      (es.foldl advance system.start).session.handled.map (fun r => (r.key, r.received)) =
        ((logon :: orders).map Outgoing.type).zip (deliveries es) := by
  have htext : ∀ (m : Outgoing) text, (∃ room,
      write room (ascii "FIX.5.0") m.type m.entries = .ok text) → m.text = text :=
    fun _ _ ⟨_, hroom⟩ => Outgoing.text_of_write hroom
  have hreads : deliveries es = (logon :: orders).map Outgoing.text := by
    apply List.ext_getElem
    · rw [List.length_map, hwritten.length_eq]
    · intro n h₁ h₂
      rw [List.getElem_map]
      exact (htext _ _ (hwritten.get (hwritten.length_eq ▸ h₁) h₁).2).symm
  have hlen : ∀ m ∈ logon :: orders, m.text.length ≤ 4096 := by
    intro m hm
    obtain ⟨n, hn, rfl⟩ := List.getElem_of_mem hm
    have hget := hwritten.get hn (hwritten.length_eq ▸ hn)
    exact (congrArg List.length (htext _ _ hget.2)).trans_le hget.1
  have hframed := framed_of_texts hlogon horders hevents hreads hlen henv
  refine ⟨hframed.1.1, hframed.1.2, ?_⟩
  rw [map_handled_of_framed hframed, hreads, List.zip_map']

theorem answers_sampleEnv : Answers sampleEnv := by
  have hlen : (FixMessage.replyText sampleEnv).toOption.map List.length = some 241 := by
    decide +kernel
  cases h : FixMessage.replyText sampleEnv with
  | error f =>
    rw [h] at hlen
    cases hlen
  | ok text =>
    rw [h] at hlen
    have htext : text.length = 241 := Option.some.inj hlen
    exact ⟨text, h, by omega⟩

def sampleRequests : Outgoing × Outgoing :=
  (⟨ascii "A", [.string 49 (ascii "X")], ⟨by decide, by decide, by decide⟩, by
      simp only [List.forall_mem_cons, List.not_mem_nil, false_implies, implies_true, and_true]
      exact ⟨by decide, by decide⟩⟩,
    ⟨ascii "D", [.int 38 (-7)], ⟨by decide, by decide, by decide⟩, by
      simp only [List.forall_mem_cons, List.not_mem_nil, false_implies, implies_true, and_true]
      exact ⟨by decide, by decide⟩⟩)

theorem written_stream_handled_pair :
    let es := [Event.readCompletion sampleEnv sampleRequests.1.text,
      .readCompletion sampleEnv sampleRequests.2.text]
    (es.foldl advance system.start).failure = none ∧
      (es.foldl advance system.start).session.Armed ∧
      (es.foldl advance system.start).session.handled.map (fun r => (r.key, r.received)) =
        ([sampleRequests.1, sampleRequests.2].map Outgoing.type).zip (deliveries es) := by
  have hlogon : sampleRequests.1.text.length = 36 := by decide +kernel
  have horder : sampleRequests.2.text.length = 37 := by decide +kernel
  refine written_stream_handled rfl (fun m hm => (List.mem_singleton.mp hm) ▸ rfl) (by simp)
    (.cons ⟨by omega, 100, ?_⟩ (.cons ⟨by omega, 100, ?_⟩ .nil)) ?_
  · rw [Outgoing.write_text, if_neg (by omega)]
  · rw [Outgoing.write_text, if_neg (by omega)]
  · intro env henv
    rw [← Option.some.inj henv]
    exact answers_sampleEnv

/-! ## The test messages -/

theorem wellFormed_timestamp {tag : Int} (h : IsFieldTag tag) (t : Timestamp) :
    (FieldEntry.timestamp tag t).WellFormed := ⟨h, soh_not_mem_timestampText t⟩

theorem length_text_timestamp (tag : Int) (t : Timestamp) :
    (FieldEntry.timestamp tag t).text.length = (itoa tag).length + 23 := by
  simp only [FieldEntry.text, FieldEntry.tag, FieldEntry.value, fieldBytes, List.length_append,
    length_timestampText, List.length_singleton]

def logonEntries (now : Timestamp) : List FieldEntry :=
  [.string 49 (ascii "AAAA"), .string 56 (ascii "BBBB"), .int 34 1, .timestamp 52 now, .int 98 0,
    .int 108 10]

def orderEntries (now : Timestamp) : List FieldEntry :=
  [.string 49 (ascii "AAAA"), .string 56 (ascii "BBBB"), .int 34 2, .timestamp 52 now,
    .string 11 (ascii "A1"), .char 21 49, .string 55 (ascii "OIH"), .char 54 49, .timestamp 60 now,
    .int 38 100, .char 40 50, .decimal 44 50001 (-2), .char 59 49]

def testLogon (now : Timestamp) : Outgoing where
  type := ascii "A"
  entries := logonEntries now
  sendable := ⟨by decide, by decide, by
    rw [logonEntries, List.length_flatMap]
    simp only [List.map_cons, length_text_timestamp]
    decide⟩
  wellFormed := by
    simp only [logonEntries, List.forall_mem_cons, List.not_mem_nil, false_implies, implies_true,
      and_true]
    exact ⟨⟨by decide, by decide⟩, ⟨by decide, by decide⟩, ⟨by decide, by decide⟩,
      wellFormed_timestamp (by decide) _, ⟨by decide, by decide⟩, ⟨by decide, by decide⟩⟩

def testOrder (now : Timestamp) : Outgoing where
  type := ascii "D"
  entries := orderEntries now
  sendable := ⟨by decide, by decide, by
    rw [orderEntries, List.length_flatMap]
    simp only [List.map_cons, length_text_timestamp]
    decide⟩
  wellFormed := by
    simp only [orderEntries, List.forall_mem_cons, List.not_mem_nil, false_implies, implies_true,
      and_true]
    exact ⟨⟨by decide, by decide⟩, ⟨by decide, by decide⟩, ⟨by decide, by decide⟩,
      wellFormed_timestamp (by decide) _, ⟨by decide, by decide⟩, ⟨by decide, by decide⟩,
      ⟨by decide, by decide⟩, ⟨by decide, by decide⟩, wellFormed_timestamp (by decide) _,
      ⟨by decide, by decide⟩, ⟨by decide, by decide⟩, ⟨by decide, by decide⟩, ⟨by decide, by decide⟩⟩

theorem writeMessage_push (room : Nat) (type : Bytes) (entries : List FieldEntry) :
    FixMessage.writeMessage room ((·.pushBackString 35 type) :: entries.map FieldEntry.push) =
      write room (ascii "FIX.5.0") type entries := by
  unfold FixMessage.writeMessage write
  apply bind_congr
  intro w
  have hcons : pushAll ((·.pushBackString 35 type) :: entries.map FieldEntry.push) w =
      w.pushBackString 35 type >>= pushAll (entries.map FieldEntry.push) := rfl
  rw [hcons, bind_assoc]

theorem testMessages_eq (now : Timestamp) :
    FixMessage.testMessages now = .ok ((testLogon now).text, (testOrder now).text) := by
  obtain ⟨logon, newOrder, h, hlogon, hnewOrder⟩ := FixMessage.testMessages_ok now
  rw [h]
  obtain ⟨l, hl, h⟩ := bind_eq_ok.mp h
  obtain ⟨o, ho, h⟩ := bind_eq_ok.mp h
  cases h
  have hlogonText : (testLogon now).text = logon :=
    Outgoing.text_of_write ((writeMessage_push _ _ _).symm.trans hl)
  have horderText : (testOrder now).text = newOrder :=
    Outgoing.text_of_write ((writeMessage_push _ _ _).symm.trans ho)
  rw [hlogonText, horderText]

/-- The test messages that the server answers a logon with are a logon and an order that it handles
itself, whatever the clock said when they were made. -/
theorem test_messages_handled {now : Timestamp} {logon newOrder : Bytes} {es : List Event}
    (h : FixMessage.testMessages now = .ok (logon, newOrder)) (hevents : ∀ e ∈ es, e ≠ .readError)
    (hreads : deliveries es = [logon, newOrder])
    (henv : ∀ env, (readEnvs es).head? = some env → Answers env) :
    (es.foldl advance system.start).failure = none ∧
      (es.foldl advance system.start).session.Armed ∧
      (es.foldl advance system.start).session.handled.map (fun r => (r.key, r.received)) =
        [(ascii "A", logon), (ascii "D", newOrder)] := by
  obtain ⟨hlogon, hnewOrder⟩ := Prod.mk.inj (Except.ok.inj (h.symm.trans (testMessages_eq now)))
  subst hlogon hnewOrder
  obtain ⟨_, _, h', hlogonLen, horderLen⟩ := FixMessage.testMessages_ok now
  obtain ⟨rfl, rfl⟩ := Prod.mk.inj (Except.ok.inj (h'.symm.trans h))
  have hlen : ∀ m ∈ [testLogon now, testOrder now], m.text.length ≤ 4096 := by
    simp only [List.forall_mem_cons, List.not_mem_nil, false_implies, implies_true, and_true]
    omega
  have hframed := framed_of_texts rfl (fun m hm => (List.mem_singleton.mp hm) ▸ rfl) hevents hreads
    hlen henv
  exact ⟨hframed.1.1, hframed.1.2, map_handled_of_framed hframed⟩

theorem test_messages_handled_sample :
    let now := sampleEnv.now
    let es := [Event.readCompletion sampleEnv (testLogon now).text,
      .readCompletion sampleEnv (testOrder now).text]
    (es.foldl advance system.start).failure = none ∧
      (es.foldl advance system.start).session.Armed ∧
      (es.foldl advance system.start).session.handled.map (fun r => (r.key, r.received)) =
        [(ascii "A", (testLogon now).text), (ascii "D", (testOrder now).text)] := by
  refine test_messages_handled (testMessages_eq sampleEnv.now) (by simp) rfl ?_
  intro env henv
  rw [← Option.some.inj henv]
  exact answers_sampleEnv

end AuthSession
end Warhead
