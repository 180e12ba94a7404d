import WarheadFix.Server.ReceivedOnly

/-! How a stream of messages may be cut. A session that gets one whole message with each read
handles them one by one; with any other cut it does not handle them all. -/

namespace Warhead.AuthSession
open Lib Hffix

def readEnvs : List Event → List Env
  | [] => []
  | .readCompletion env _ :: es => env :: readEnvs es
  | _ :: es => readEnvs es

/-- Each message has been handled on its own and in its place, and the session waits for more. -/
def Framed (messages : List Frame) (p : Process) : Prop :=
  (p.failure = none ∧ p.session.Armed) ∧
    p.session.handled.map (fun r => (r.key, r.received)) =
      messages.map fun f => (f.msgType, fixText f)

/-- Each handler accepts its message in the storage that the message comes to lie in. -/
def AcceptsAll : Bytes → List (Frame × Env) → Prop
  | _, [] => True
  | mem, (f, env) :: rest =>
    let mem := fixText f ++ mem.drop (fixText f).length
    Accepts f.msgType env mem ∧ AcceptsAll mem rest

def Due : AuthStatus → List Frame → Prop
  | _, [] => True
  | status, f :: fs => statusFor f.msgType = some status ∧ Due .authed fs

section Sublists
universe u
variable {α : Type u} {l m : List (List α)}

theorem length_flatten_le (h : l.Sublist m) : l.flatten.length ≤ m.flatten.length := by
  induction h with
  | slnil => exact le_rfl
  | cons x h ih => rw [List.flatten_cons, List.length_append]; omega
  | cons_cons x h ih =>
    rw [List.flatten_cons, List.flatten_cons, List.length_append, List.length_append]
    omega

theorem eq_of_sublist_of_flatten (h : l.Sublist m) (hne : ∀ x ∈ m, x ≠ [])
    (hlen : l.flatten.length = m.flatten.length) : l = m := by
  induction h with
  | slnil => rfl
  | cons x h ih =>
    have hx : 0 < x.length := List.length_pos_iff.mpr (hne x (List.mem_cons_self ..))
    have hle := length_flatten_le h
    rw [List.flatten_cons, List.length_append] at hlen
    omega
  | cons_cons x h ih =>
    rw [List.flatten_cons, List.flatten_cons, List.length_append, List.length_append] at hlen
    rw [ih (fun y hy => hne y (List.mem_cons_of_mem _ hy)) (by omega)]

end Sublists

section Advance
variable {env : Env} {s t : AuthSession} {p q : Process} {e : Event} {es : List Event}

def Deaf (p : Process) : Prop := p.failure ≠ none ∨ p.session.reads = []

theorem deaf_advance (hi : Inv p) (hd : Deaf p) (e : Event) : Deaf (advance p e) := by
  unfold advance
  cases h : step p e with
  | none => exact hd
  | some q =>
    cases hi.steps h with
    | received ha hp => exact hd.elim (absurd hp) fun hr => absurd (ha.reads.symm.trans hr) nofun
    | readFailed ha hp => exact hd.elim (absurd hp) fun hr => absurd (ha.reads.symm.trans hr) nofun
    | wrote hp hw => exact hd.elim (absurd hp) fun hr => .inr (hw.reads.trans hr)

theorem deaf_foldl (hi : Inv p) (hd : Deaf p) (es : List Event) : Deaf (es.foldl advance p) := by
  induction es generalizing p with
  | nil => exact hd
  | cons e es ih => exact ih (inv_advance hi e) (deaf_advance hi hd e)

theorem not_armed_of_deaf (hd : Deaf p) : ¬(p.failure = none ∧ p.session.Armed) := by
  rintro ⟨hp, ha⟩
  exact hd.elim (absurd hp) fun hr => absurd (ha.reads.symm.trans hr) nofun

theorem Ran.accepts {key : Bytes} (hr : Ran env s key (t, .ok true)) :
    Accepts key env s.readBuffer.storage := by
  cases hr with
  | order h => exact ⟨h, fun hkey => absurd hkey (by decide)⟩
  | logon h hreply => exact ⟨h, fun _ => by rw [hreply]; rfl⟩

theorem Exits.deaf {key : Bytes} {x : AuthSession × Result Unit} (hu : s.Reading)
    (hx : Exits env s x) (hd : s.decision = .ok (.run key))
    (ha : ¬Accepts key env s.readBuffer.storage) : Deaf (.after x) := by
  cases hx with
  | fault => exact .inl nofun
  | unsupportProtocol h => exact absurd (h.symm.trans hd) nofun
  | unknownCommand h => exact absurd (h.symm.trans hd) nofun
  | wrongStatus h => exact absurd (h.symm.trans hd) nofun
  | handlerFault => exact .inl nofun
  | rejected _ hr =>
    have hreads := (hu.ran hr).reads
    exact .inr (by simpa [Process.after, closeSocket] using hreads)
  | accepted h hr =>
    obtain rfl := Decision.run.inj (Except.ok.inj (h.symm.trans hd))
    exact absurd hr.accepts ha

theorem Armed.refused {f : Frame} (h : s.Armed) (hs : statusFor f.msgType = some s.status)
    (hle : (fixText f).length ≤ 4096) (ha : ¬Accepts f.msgType env (s.overlay (fixText f))) :
    Deaf (advance ⟨s, none⟩ (.readCompletion env (fixText f))) := by
  have hu := h.delivered hle
  rw [advance_of_step (h.step_received env _ (fixText_ne_nil f) hle)]
  exact (readHandler_exits env hu.isOpen).deaf hu (h.decision_fixText hs hle) ha

theorem Armed.advance_other (h : s.Armed) (hr : e ≠ .readError)
    (he : ∀ env data, e ≠ .readCompletion env data) :
    ∃ t, advance ⟨s, none⟩ e = ⟨t, none⟩ ∧ t.Armed ∧ t.status = s.status ∧
      t.readBuffer = s.readBuffer ∧ t.handled = s.handled := by
  have hi : Inv ⟨s, none⟩ := h.inv
  cases hq : step ⟨s, none⟩ e with
  | none => exact ⟨s, by rw [advance, hq]; rfl, h, rfl, rfl, rfl⟩
  | some q =>
    rw [advance_of_step hq]
    cases hi.steps hq with
    | received => exact absurd rfl (he _ _)
    | readFailed => exact absurd rfl hr
    | @wrote _ u _ hw =>
      refine ⟨{ s with toSocket := u }, rfl, ?_, rfl, hw.readBuffer, rfl⟩
      rcases (hi.wrote (f := none) hw).reads with hnil | harmed
      · exact absurd (hw.reads.symm.trans hnil) (h.reads ▸ List.cons_ne_nil _ _)
      · exact harmed

end Advance

section Framing
variable {env : Env} {s t : AuthSession} {q : Process} {e : Event} {es : List Event}

/-- The session waits in the end exactly if it accepts every message, and has then handled each
of them on its own. -/
structure Handles (s : AuthSession) (messages : List (Frame × Env)) (q : Process) : Prop where
  waits : (q.failure = none ∧ q.session.Armed) ↔ AcceptsAll s.readBuffer.storage messages
  handled : AcceptsAll s.readBuffer.storage messages →
    ∃ runs, q.session.handled = s.handled ++ runs ∧
      runs.map (fun r => (r.key, r.received)) = messages.map fun m => (m.1.msgType, fixText m.1)

theorem Handles.of_eq {messages : List (Frame × Env)} (h : t.Handles messages q)
    (hb : t.readBuffer = s.readBuffer) (hh : t.handled = s.handled) : s.Handles messages q := by
  constructor
  · rw [← hb]
    exact h.waits
  · rw [← hb, ← hh]
    exact h.handled

theorem Armed.handles_cons {f : Frame} {rest : List (Frame × Env)} (h : s.Armed)
    (hs : statusFor f.msgType = some s.status) (hle : (fixText f).length ≤ 4096)
    (hq : ∀ t : AuthSession, t.Armed → t.status = .authed →
      t.readBuffer.storage = s.overlay (fixText f) →
      advance ⟨s, none⟩ (.readCompletion env (fixText f)) = ⟨t, none⟩ → t.Handles rest q)
    (hdeaf : Deaf (advance ⟨s, none⟩ (.readCompletion env (fixText f))) → Deaf q) :
    s.Handles ((f, env) :: rest) q := by
  by_cases ha : Accepts f.msgType env (s.overlay (fixText f))
  · obtain ⟨t, ht, harmed, hstatus, hstorage, hhandled⟩ := h.arrives env hs hle ha
    have hrest := hq t harmed hstatus hstorage (advance_of_step ht)
    have hall : AcceptsAll s.readBuffer.storage ((f, env) :: rest) ↔
        AcceptsAll t.readBuffer.storage rest := by
      rw [hstorage]
      exact and_iff_right ha
    refine ⟨by rw [hrest.waits, hall], fun hacc => ?_⟩
    obtain ⟨runs, hruns, hmap⟩ := hrest.handled (hall.mp hacc)
    refine ⟨_, by rw [hruns, hhandled, List.append_assoc], ?_⟩
    rw [List.map_append, hmap]
    change [(f.msgType, (s.delivered (fixText f)).readBuffer.active)] ++ _ = _
    rw [active_delivered]
    rfl
  · have hnot : ¬AcceptsAll s.readBuffer.storage ((f, env) :: rest) := fun hacc => ha hacc.1
    exact ⟨iff_of_false (not_armed_of_deaf (hdeaf (h.refused hs hle ha))) hnot,
      fun hacc => absurd hacc hnot⟩

theorem Armed.handles {messages : List Frame} (h : s.Armed) (hdue : Due s.status messages)
    (hevents : ∀ e ∈ es, e ≠ .readError) (hlen : ∀ data ∈ deliveries es, data.length ≤ 4096)
    (hreads : deliveries es = messages.map fixText) :
    s.Handles (messages.zip (readEnvs es)) (es.foldl advance ⟨s, none⟩) := by
  induction es generalizing s messages with
  | nil =>
    obtain rfl : messages = [] := by simpa [deliveries] using hreads.symm
    exact ⟨iff_of_true ⟨rfl, h⟩ trivial, fun _ => ⟨[], (List.append_nil _).symm, rfl⟩⟩
  | cons e es ih =>
    rw [List.foldl_cons]
    have hrest : ∀ e ∈ es, e ≠ .readError := fun x hx => hevents x (List.mem_cons_of_mem _ hx)
    have hone := hevents e (List.mem_cons_self ..)
    cases e with
    | readError => exact absurd rfl hone
    | readCompletion env data =>
      cases messages with
      | nil => exact absurd hreads nofun
      | cons f fs =>
        obtain ⟨rfl, hreads'⟩ := List.cons.inj hreads
        have hle := hlen _ (List.mem_cons_self ..)
        have hlen' : ∀ data ∈ deliveries es, data.length ≤ 4096 :=
          fun x hx => hlen x (List.mem_cons_of_mem _ hx)
        refine h.handles_cons hdue.1 hle (fun t ht hstatus _ hadv => ?_) fun hd => ?_
        · rw [hadv]
          exact ih ht (hstatus ▸ hdue.2) hrest hlen' hreads'
        · exact deaf_foldl (inv_advance h.inv _) hd es
    | update net =>
      obtain ⟨t, ht, harmed, hstatus, hb, hh⟩ := h.advance_other hone nofun
      rw [ht]
      exact (ih harmed (hstatus ▸ hdue) hrest hlen hreads).of_eq hb hh
    | writeReady net =>
      obtain ⟨t, ht, harmed, hstatus, hb, hh⟩ := h.advance_other hone nofun
      rw [ht]
      exact (ih harmed (hstatus ▸ hdue) hrest hlen hreads).of_eq hb hh

theorem due_of_types {logon : Frame} {orders : List Frame} (hlogon : logon.msgType = ascii "A")
    (horders : ∀ f ∈ orders, f.msgType = ascii "D") : Due .notAuthed (logon :: orders) := by
  refine ⟨by rw [hlogon]; rfl, ?_⟩
  induction orders with
  | nil => trivial
  | cons f fs ih =>
    refine ⟨by rw [horders f (List.mem_cons_self ..)]; rfl, ih fun g hg => ?_⟩
    exact horders g (List.mem_cons_of_mem _ hg)

theorem length_readEnvs (es : List Event) : (readEnvs es).length = (deliveries es).length := by
  induction es with
  | nil => rfl
  | cons e es ih => cases e <;> simp [readEnvs, deliveries, ih]

theorem storage_new : new.start.readBuffer.storage = List.replicate 4096 0 := by
  have hs : new.readBuffer.storage.length = 4096 := length_resized _ _
  have hstart : new.start = { new with reads := [⟨0, 4096⟩] } :=
    armed_asyncRead rfl rfl rfl rfl rfl hs
  rw [hstart]
  exact congrArg MessageBuffer.storage (MessageBuffer.new_resize 4096)

theorem Framed.sublist {messages : List Frame}
    (h : Framed messages (es.foldl advance system.start)) :
    (messages.map fixText).Sublist (deliveries es) := by
  have hi : Inv system.start := armed_start.inv
  obtain ⟨runs, hruns, hsub⟩ := handled_foldl hi es
  have htrace := congrArg (List.map Prod.snd) h.2
  have hnil : system.start.session.handled = [] := rfl
  rw [hruns, hnil, List.nil_append, List.map_map, List.map_map] at htrace
  have htexts : runs.map HandlerRun.received = messages.map fixText := htrace
  rwa [htexts] at hsub

/-- A stream of a logon and orders is handled message by message exactly if each read brings one
whole message, and each handler accepts its message where it then lies in the storage. -/
theorem framed_iff {logon : Frame} {orders : List Frame} {es : List Event}
    (hlogon : logon.msgType = ascii "A") (horders : ∀ f ∈ orders, f.msgType = ascii "D")
    (hevents : ∀ e ∈ es, e ≠ .readError)
    (hreads : ∀ data ∈ deliveries es, data ≠ [] ∧ data.length ≤ 4096)
    (hstream : (deliveries es).flatten = ((logon :: orders).map fixText).flatten) :
    Framed (logon :: orders) (es.foldl advance system.start) ↔
      deliveries es = (logon :: orders).map fixText ∧
        AcceptsAll (List.replicate 4096 0) ((logon :: orders).zip (readEnvs es)) := by
  have hdue := due_of_types hlogon horders
  have hnil : new.start.handled = [] := rfl
  have hhandles (hcut : deliveries es = (logon :: orders).map fixText) :
      new.start.Handles ((logon :: orders).zip (readEnvs es)) (es.foldl advance system.start) :=
    armed_start.handles hdue hevents (fun data hd => (hreads data hd).2) hcut
  constructor
  · intro h
    have hcut := (eq_of_sublist_of_flatten h.sublist (fun x hx => (hreads x hx).1)
      (congrArg List.length hstream.symm)).symm
    refine ⟨hcut, ?_⟩
    rw [← storage_new]
    exact (hhandles hcut).waits.mp h.1
  · rintro ⟨hcut, hacc⟩
    rw [← storage_new] at hacc
    have h := hhandles hcut
    obtain ⟨runs, hruns, hmap⟩ := h.handled hacc
    rw [hnil, List.nil_append] at hruns
    refine ⟨h.waits.mpr hacc, ?_⟩
    have hcount : (logon :: orders).length ≤ (readEnvs es).length := by
      rw [length_readEnvs, hcut, List.length_map]
    rw [hruns, hmap]
    have hzip := congrArg (List.map fun f : Frame => (f.msgType, fixText f))
      (List.map_fst_zip hcount)
    rw [List.map_map] at hzip
    exact hzip

theorem framed_iff_apart :
    Framed [sampleLogon, sampleOrder]
      ([.readCompletion sampleEnv (fixText sampleLogon),
        .readCompletion sampleEnv (fixText sampleOrder)].foldl advance system.start) := by
  refine (framed_iff rfl (by simp; rfl) (by simp)
    (by decide) rfl).mpr ⟨rfl, ?_, ?_, trivial⟩
  · exact accepts_in_front (fixText sampleLogon) (List.prefix_append _ _)
      (by decide +kernel) (by decide +kernel)
  · exact accepts_in_front (fixText sampleOrder) (List.prefix_append _ _)
      (by decide +kernel) (fun h => absurd h (by decide))

/-- Neither two messages in one read nor one message in two. -/
theorem not_framed_otherwise :
    ¬ Framed [sampleLogon, sampleOrder]
        ([.readCompletion sampleEnv (fixText sampleLogon ++ fixText sampleOrder)].foldl advance
          system.start) ∧
      ¬ Framed [sampleLogon]
        ([.readCompletion sampleEnv ((fixText sampleLogon).take 10),
          .readCompletion sampleEnv ((fixText sampleLogon).drop 10)].foldl advance
            system.start) := by
  constructor
  · intro h
    exact absurd h.sublist (by decide)
  · intro h
    exact absurd h.sublist (by decide)

end Framing
end Warhead.AuthSession
