import WarheadFix.Shared.SocketQueue

/-! Outgoing bytes when writes fail. `HandleQueue` drops the front packet on an error and on a
write of no bytes, and leaves the socket open. What the packet had left is lost, and the
stream is torn as soon as the kernel accepts anything after that. -/

namespace Warhead
open Lib

namespace Socket
variable {s t : Socket} {net : Net} {answer : Nat → WriteResult} {r : Socket × Bool}

def Bounded (answer : Nat → WriteResult) : Prop := ∀ size n, answer size = .sent n → n ≤ size

def Takes (answer : Nat → WriteResult) (s : Socket) : Prop :=
  ∃ b rest n, s.writeQueue = b :: rest ∧ answer b.activeSize = .sent n ∧ 0 < n

def AllValid (s : Socket) : Prop := ∀ b ∈ s.writeQueue, b.Valid

theorem Handles.valid (h : s.AllValid) (hr : Handles answer s r) : r.1.AllValid := by
  cases hr with
  | empty => exact h
  | waits => exact fun b hb => h b (by simpa using hb)
  | drops => exact fun b hb => h b (List.mem_of_mem_tail (by simpa using hb))
  | @sends b rest n hq ha hn hlt =>
    have hrest : ∀ c ∈ b.readCompleted n :: rest, c.Valid := by
      obtain ⟨hb, hrest⟩ := List.forall_mem_cons.mp (hq ▸ h : ∀ c ∈ b :: rest, c.Valid)
      exact List.forall_mem_cons.mpr ⟨MessageBuffer.valid_readCompleted hb hlt.le, hrest⟩
    exact fun c hc => hrest c (by simpa using hc)
  | finishes => exact fun b hb => h b (List.mem_of_mem_tail (by simpa using hb))

theorem Handles.sheds (h : s.AllValid) (hr : Handles answer s r) :
    Channel.Sheds s.channel r.1.channel ∧
      (r.2 = true → Channel.Advances s.channel r.1.channel) := by
  rcases hr.moves h with hadv | ⟨b, rest, hq, -, rfl⟩
  · exact ⟨hadv.sheds, fun _ => hadv⟩
  · have hdrop : (activeBytes s.writeQueue).drop b.active.length = activeBytes rest := by
      rw [hq, activeBytes_cons, List.drop_left]
    refine ⟨⟨s.channel, b.active.length, .refl _, ?_⟩, fun hmore => absurd hmore Bool.false_ne_true⟩
    rw [popPacket_channel, channel, hdrop, hq, List.tail_cons]

theorem Handles.accepted (h : s.AllValid) (hanswer : Bounded answer) (hr : Handles answer s r) :
    ∃ taken, r.1.channel.sent = s.accepted ++ taken ∧ (taken = [] ↔ ¬ Takes answer s) := by
  have hnone : ∀ {b rest}, s.writeQueue = b :: rest →
      (∀ n, answer b.activeSize = .sent n → n = 0) → ¬ Takes answer s := by
    rintro b rest hq hzero ⟨c, cs, n, hq', ha, hn⟩
    obtain ⟨rfl, -⟩ := List.cons.inj (hq.symm.trans hq')
    exact hn.ne' (hzero n ha)
  have hsome : ∀ {b rest n}, s.writeQueue = b :: rest → answer b.activeSize = .sent n → 0 < n →
      (b.active.take n = [] ↔ ¬ Takes answer s) := by
    intro b rest n hq ha hn
    have hlen : b.active.length = b.activeSize :=
      MessageBuffer.length_active (h b (hq ▸ List.mem_cons_self ..))
    have hle : n ≤ b.activeSize := hanswer _ n ha
    refine iff_of_false (fun hnil => ?_) (not_not_intro ⟨b, rest, n, hq, ha, hn⟩)
    have hcount := congrArg List.length hnil
    rw [List.length_take, hlen, List.length_nil, min_eq_left hle] at hcount
    exact hn.ne' hcount
  cases hr with
  | empty hq =>
    refine ⟨[], (List.append_nil _).symm, iff_of_true rfl ?_⟩
    rintro ⟨b, rest, n, hq', -⟩
    exact absurd (hq.symm.trans hq') (List.cons_ne_nil _ _).symm
  | waits hq ha =>
    refine ⟨[], ?_, iff_of_true rfl (hnone hq fun n hn => ?_)⟩
    · rw [asyncProcessQueue_channel, List.append_nil, channel]
    · rcases ha with ha | ha <;> rw [ha] at hn <;> cases hn
  | drops hq ha =>
    refine ⟨[], ?_, iff_of_true rfl (hnone hq fun n hn => ?_)⟩
    · rw [popPacket_channel, List.append_nil]
    · rcases ha with ha | ha <;> rw [ha] at hn <;> cases hn
      rfl
  | @sends b rest n hq ha hn hlt =>
    refine ⟨b.active.take n, ?_, hsome hq ha hn⟩
    rw [asyncProcessQueue_channel, channel]
  | @finishes b rest n hq ha hn hle =>
    refine ⟨b.active.take n, ?_, hsome hq ha hn⟩
    rw [popPacket_channel]

theorem drain_sheds {fuel n : Nat} (hnet : ∀ i, Bounded (net i)) (h : s.AllValid)
    (hd : drain net fuel n s = some t) :
    t.AllValid ∧ Channel.Sheds s.channel t.channel ∧
      ∃ taken, t.accepted = s.accepted ++ taken ∧ (taken = [] ↔ ¬ Takes (net n) s) := by
  induction fuel generalizing s n with
  | zero => simp [drain] at hd
  | succ fuel ih =>
    have hone := handleQueue_handles (net n) s
    rcases hh : s.handleQueue (net n) with ⟨u, goesOn⟩
    rw [hh] at hone
    obtain ⟨hshed, hadv⟩ := hone.sheds h
    obtain ⟨taken, htaken, hiff⟩ := hone.accepted h (hnet n)
    simp only [drain, hh] at hd
    cases goesOn with
    | false =>
      obtain rfl := Option.some.inj hd
      exact ⟨hone.valid h, hshed, taken, htaken, hiff⟩
    | true =>
      obtain ⟨ht, hut, rest, hrest, -⟩ := ih (hone.valid h) hd
      obtain ⟨b, queue, k, hq, ha, hk, -⟩ := hone.goes_on
      have hgoes : Takes (net n) s := ⟨b, queue, k, hq, ha, hk⟩
      refine ⟨ht, hut.advances (hadv rfl), taken ++ rest, ?_, ?_⟩
      · change u.accepted = _ at htaken
        rw [hrest, htaken, List.append_assoc]
      · refine iff_of_false ?_ (not_not_intro hgoes)
        intro hnil
        exact hiff.mp (List.append_eq_nil_iff.mp hnil).1 hgoes

def Calls (s : Socket) : Prop := s.closed = false ∧ s.isWritingAsync = false

theorem update_sheds {fuel : Nat} {more : Bool} (hnet : ∀ i, Bounded (net i)) (h : s.AllValid)
    (hu : s.update net fuel = some (t, more)) :
    t.AllValid ∧ Channel.Sheds s.channel t.channel ∧
      ∃ taken, t.accepted = s.accepted ++ taken ∧
        (taken = [] ↔ ¬ (s.Calls ∧ Takes (net 0) s)) := by
  have hidle : ¬ (s.Calls ∧ Takes (net 0) s) → s = t →
      t.AllValid ∧ Channel.Sheds s.channel t.channel ∧
        ∃ taken, t.accepted = s.accepted ++ taken ∧
          (taken = [] ↔ ¬ (s.Calls ∧ Takes (net 0) s)) := by
    rintro hno rfl
    exact ⟨h, (Channel.Advances.refl _).sheds, [], (List.append_nil _).symm, iff_of_true rfl hno⟩
  unfold update at hu
  split_ifs at hu with hclosed hwait
  · refine hidle ?_ (congrArg Prod.fst (Option.some.inj hu))
    rintro ⟨⟨hopen, -⟩, -⟩
    exact Bool.false_ne_true (hopen.symm.trans hclosed)
  · refine hidle ?_ (congrArg Prod.fst (Option.some.inj hu))
    rintro ⟨⟨-, hidle⟩, b, rest, n, hq, -⟩
    simp [hidle, hq] at hwait
  · obtain ⟨u, hd, hut⟩ := Option.map_eq_some_iff.mp hu
    obtain rfl := congrArg Prod.fst hut
    obtain ⟨ht, hshed, taken, htaken, hiff⟩ := drain_sheds hnet h hd
    refine ⟨ht, hshed, taken, htaken, hiff.trans (not_congr ⟨fun htakes => ⟨?_, htakes⟩, And.right⟩)⟩
    obtain ⟨b, rest, n, hq, -⟩ := htakes
    have hfree : s.isWritingAsync = false := by
      simpa [hq] using hwait
    exact ⟨Bool.eq_false_of_not_eq_true hclosed, hfree⟩

/-! ## Runs -/

abbrev AnyNet := { net : Net // ∀ i, Bounded (net i) }

inductive AnyWrite where
  | queuePacket (packet : { b : MessageBuffer // b.Valid })
  | update (net : AnyNet)
  | writeReady (net : AnyNet)
  | closeSocket
  | delayedCloseSocket

def anyWrite (s : Socket) : AnyWrite → Option Socket
  | .queuePacket packet => some (s.queuePacket packet.1)
  | .update net => (s.update net.1 (s.writeQueue.length + 1)).map Prod.fst
  | .writeReady net => if s.writes = [] then none else some (s.writeHandlerWrapper net.1)
  | .closeSocket => some s.closeSocket
  | .delayedCloseSocket => some s.delayedCloseSocket

def Accepting (s : Socket) : AnyWrite → Prop
  | .update net => s.Calls ∧ Takes (net.1 0) s
  | .writeReady net => Takes (net.1 0) s
  | _ => False

theorem anyWrite_sheds {e : AnyWrite} (h : s.AllValid) (hs : s.anyWrite e = some t) :
    t.AllValid ∧ Channel.Proceeds s.channel t.channel ∧
      ∃ taken, t.accepted = s.accepted ++ taken ∧ (taken = [] ↔ ¬ s.Accepting e) := by
  cases e with
  | queuePacket packet =>
    obtain rfl := Option.some.inj hs
    refine ⟨?_, .inr ⟨_, channel_queuePacket s packet.1⟩, [], (List.append_nil _).symm,
      iff_of_true rfl not_false⟩
    exact List.forall_mem_append.mpr ⟨h, List.forall_mem_singleton.mpr packet.2⟩
  | update net =>
    obtain ⟨⟨u, more⟩, hu, rfl⟩ := Option.map_eq_some_iff.mp hs
    obtain ⟨ht, hshed, htaken⟩ := update_sheds net.2 h hu
    exact ⟨ht, .inl hshed, htaken⟩
  | writeReady net =>
    simp only [anyWrite] at hs
    split_ifs at hs
    obtain rfl := Option.some.inj hs
    let u : Socket := { s with isWritingAsync := false, writes := s.writes.tail }
    have hu : u.AllValid := h
    have hone := handleQueue_handles (net.1 0) u
    obtain ⟨taken, htaken, hiff⟩ := hone.accepted hu (net.2 0)
    exact ⟨hone.valid hu, .inl (hone.sheds hu).1, taken, htaken, hiff⟩
  | closeSocket =>
    obtain rfl := Option.some.inj hs
    refine ⟨?_, .inl ?_, [], ?_, iff_of_true rfl not_false⟩
    · exact fun b hb => h b (by simpa using hb)
    · rw [closeSocket_channel]
      exact (Channel.Advances.refl _).sheds
    · rw [closeSocket_accepted, List.append_nil]
  | delayedCloseSocket =>
    obtain rfl := Option.some.inj hs
    exact ⟨h, .inl (Channel.Advances.refl _).sheds, [], (List.append_nil _).symm,
      iff_of_true rfl not_false⟩

/-- The socket, and what it had accepted when bytes of a packet were first dropped. -/
structure Outgoing where
  socket : Socket
  cut : Option Bytes

namespace Outgoing

def after (s : Outgoing) (t : Socket) : Outgoing where
  socket := t
  cut := s.cut.or (if t.channel.Conserved then none else some t.accepted)

def step (s : Outgoing) (e : AnyWrite) : Option Outgoing := (s.socket.anyWrite e).map s.after

def system : System Outgoing AnyWrite := ⟨⟨new, none⟩, step⟩

structure Inv (s : Outgoing) : Prop where
  valid : s.socket.AllValid
  whole : s.cut = none → s.socket.channel.Conserved
  lossy : s.cut ≠ none → s.socket.channel.Lossy

/-- The bytes accepted are the first of those queued, and none have been accepted since some
were dropped. -/
structure Untorn (s : Outgoing) : Prop where
  inOrder : s.socket.accepted <+: activeBytes s.socket.queued
  cut : ∀ bs, s.cut = some bs → s.socket.accepted = bs

/-- Once bytes have been dropped, no later `write_some` succeeds. -/
def Quiet (s : Outgoing) (e : AnyWrite) : Prop := s.cut ≠ none → ¬ s.socket.Accepting e

section Steps
variable {s t : Outgoing} {e : AnyWrite}

theorem Inv.step_whole (h : s.Inv) (hcut : s.cut = none) (hs : s.step e = some t) :
    t.Inv ∧ t.Untorn := by
  obtain ⟨k, hk, rfl⟩ := Option.map_eq_some_iff.mp hs
  obtain ⟨hvalid, hch, -⟩ := anyWrite_sheds h.valid hk
  have hnow : (k.channel.Conserved ∨ k.channel.Lossy) ∧ k.accepted <+: activeBytes k.queued :=
    hch.of_conserved (h.whole hcut)
  have hafter : (s.after k).cut = if k.channel.Conserved then none else some k.accepted := by
    rw [after, hcut, Option.none_or]
  refine ⟨⟨hvalid, fun hnone => ?_, fun hsome => ?_⟩, hnow.2, fun bs hbs => ?_⟩
  · rw [hafter] at hnone
    split_ifs at hnone with hkeeps
    exact hkeeps
  · rw [hafter] at hsome
    split_ifs at hsome with hkeeps
    · exact absurd rfl hsome
    · exact hnow.1.resolve_left hkeeps
  · rw [hafter] at hbs
    split_ifs at hbs
    exact Option.some.inj hbs

theorem Inv.step_lossy (h : s.Inv) {bs : Bytes} (hcut : s.cut = some bs) (hs : s.step e = some t) :
    t.Inv ∧ (s.Untorn → (t.Untorn ↔ ¬ s.socket.Accepting e)) := by
  obtain ⟨k, hk, rfl⟩ := Option.map_eq_some_iff.mp hs
  obtain ⟨hvalid, hch, taken, htaken, hiff⟩ := anyWrite_sheds h.valid hk
  have hafter : (s.after k).cut = some bs := by
    rw [after, hcut, Option.some_or]
  have hsome : s.cut ≠ none := hcut ▸ Option.some_ne_none bs
  have hlossy : k.channel.Lossy := hch.lossy (h.lossy hsome)
  refine ⟨⟨hvalid, fun hnone => ?_, fun _ => hlossy⟩, fun hs => ⟨fun ht => ?_, fun hquiet => ?_⟩⟩
  · exact absurd (hafter.symm.trans hnone) (Option.some_ne_none bs)
  · refine hiff.mp ?_
    have hsame : k.accepted = s.socket.accepted := (ht.cut bs hafter).trans (hs.cut bs hcut).symm
    rw [hsame] at htaken
    exact List.append_right_eq_self.mp htaken.symm
  · have hsame : k.accepted = s.socket.accepted := by
      rw [htaken, hiff.mpr hquiet, List.append_nil]
    refine ⟨?_, fun bs' hbs' => ?_⟩
    · change k.accepted <+: activeBytes k.queued
      exact hsame ▸ hs.inOrder.trans hch.enqueued
    · obtain rfl := Option.some.inj (hafter.symm.trans hbs')
      exact hsame.trans (hs.cut bs hcut)

theorem Inv.step_untorn (h : s.Inv) (hs : s.Untorn) (ht : s.step e = some t) :
    t.Untorn ↔ s.Quiet e := by
  cases hcut : s.cut with
  | none => exact iff_of_true (h.step_whole hcut ht).2 fun hne => absurd hcut hne
  | some bs =>
    have hne : s.cut ≠ none := hcut ▸ Option.some_ne_none bs
    exact ((h.step_lossy hcut ht).2 hs).trans ⟨fun hq _ => hq, fun hq => hq hne⟩

theorem Inv.step (h : s.Inv) (ht : s.step e = some t) : t.Inv := by
  cases hcut : s.cut with
  | none => exact (h.step_whole hcut ht).1
  | some bs => exact (h.step_lossy hcut ht).1

end Steps

/-- In every run of the readiness build, whatever is queued and whatever the kernel answers, the
accepted bytes are the first of those queued and stop for good where bytes were dropped, exactly
if no `write_some` succeeds once one has failed on a packet that had bytes left. -/
theorem untorn_iff (es : List AnyWrite) :
    system.Throughout Untorn system.start es ↔ system.Along Quiet system.start es := by
  refine System.throughout_iff_along (I := Inv) (fun _ _ _ h ht => h.step ht)
    (fun _ _ _ h hs ht => h.step_untorn hs ht) ?_ ?_
  · exact {
      valid := fun b hb => absurd hb List.not_mem_nil
      whole := fun _ => rfl
      lossy := fun h => absurd rfl h }
  · exact ⟨List.nil_prefix, fun bs h => absurd h.symm (Option.some_ne_none bs)⟩

def tornRun : List AnyWrite :=
  [.queuePacket ⟨⟨2, 0, [56, 61]⟩, by decide, by decide⟩,
    .queuePacket ⟨⟨2, 0, [49, 48]⟩, by decide, by decide⟩,
    .update ⟨fun _ size => .sent (min 1 size), by
      rintro i size n ⟨rfl⟩
      exact min_le_right _ _⟩,
    .writeReady ⟨fun _ _ => .error, fun i size n h => by cases h⟩,
    .update ⟨fun _ size => .sent size, by
      rintro i size n ⟨rfl⟩
      exact le_rfl⟩]

theorem torn_after_failed_write :
    ¬ ∀ s, system.Reachable s → s.socket.accepted <+: activeBytes s.socket.queued := by
  intro h
  have hrun : system.runFrom system.start tornRun = some
      ⟨{ Socket.new with
          queued := [⟨2, 0, [56, 61]⟩, ⟨2, 0, [49, 48]⟩]
          accepted := [56, 49, 48] }, some [56]⟩ := rfl
  exact absurd (h _ ⟨_, hrun⟩) (by decide)

end Outgoing
end Socket
end Warhead
