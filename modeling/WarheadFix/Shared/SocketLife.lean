import WarheadFix.Shared.SocketQueue

/-! What the callbacks do to a socket besides its outgoing bytes. Its flags only age, and the
write side leaves the read side alone and closes nothing that is not closing. -/

namespace Warhead
open Lib

namespace Socket
variable {s t : Socket} {net : Net} {answer : Nat → WriteResult}

def ClosesOnce (s : Socket) : Prop := s.onCloseRuns = if s.closed then 1 else 0

structure Ages (s t : Socket) : Prop where
  closing : t.closing = s.closing
  closed : s.closed = true → t.closed = true
  closesOnce : s.ClosesOnce → t.ClosesOnce

theorem ages_of_flags (h : t.closing = s.closing) (h' : t.closed = s.closed)
    (hr : t.onCloseRuns = s.onCloseRuns) : Ages s t := by
  refine ⟨h, fun hc => h'.trans hc, fun hs => ?_⟩
  unfold ClosesOnce at hs ⊢
  rw [hr, h', hs]

theorem Ages.trans {u : Socket} (h : Ages s t) (h' : Ages t u) : Ages s u :=
  ⟨h'.closing.trans h.closing, h'.closed ∘ h.closed, h'.closesOnce ∘ h.closesOnce⟩

theorem ages_closeSocket (s : Socket) : Ages s s.closeSocket := by
  refine ⟨closeSocket_closing, fun _ => closeSocket_closed, fun h => ?_⟩
  unfold closeSocket
  split_ifs with hc
  · exact h
  · simp_all [ClosesOnce]

structure Writes (s t : Socket) : Prop extends Ages s t where
  readBuffer : t.readBuffer = s.readBuffer
  reads : t.reads = s.reads
  queued : t.queued = s.queued
  stays : s.closing = false → t.closed = s.closed

theorem Writes.refl (s : Socket) : Writes s s :=
  ⟨⟨rfl, id, id⟩, rfl, rfl, rfl, fun _ => rfl⟩

theorem Writes.trans {u : Socket} (h : Writes s t) (h' : Writes t u) : Writes s u where
  toAges := h.toAges.trans h'.toAges
  readBuffer := h'.readBuffer.trans h.readBuffer
  reads := h'.reads.trans h.reads
  queued := h'.queued.trans h.queued
  stays hc := (h'.stays (h.closing.trans hc)).trans (h.stays hc)

theorem writes_of_fields (s : Socket) (q : List MessageBuffer) (bs : Bytes) (w : Bool)
    (ws : List Bytes) :
    Writes s { s with writeQueue := q, accepted := bs, isWritingAsync := w, writes := ws } :=
  ⟨ages_of_flags rfl rfl rfl, rfl, rfl, rfl, fun _ => rfl⟩

theorem writes_asyncProcessQueue (s : Socket) : Writes s s.asyncProcessQueue.1 := by
  unfold asyncProcessQueue
  split_ifs
  · exact .refl s
  · exact writes_of_fields s _ _ _ _

theorem writes_popPacket (s : Socket) : Writes s s.popPacket := by
  have htail := writes_of_fields s s.writeQueue.tail s.accepted s.isWritingAsync s.writes
  unfold popPacket
  dsimp only
  split_ifs with hclosing
  · have hc : s.closing = true := (Bool.and_eq_true _ _ ▸ hclosing).1
    exact ⟨htail.toAges.trans (ages_closeSocket _), by simp, by simp, by simp, by simp [hc]⟩
  · exact htail

theorem Handles.writes {r : Socket × Bool} (h : Handles answer s r) : Writes s r.1 := by
  cases h with
  | empty => exact .refl s
  | waits => exact writes_asyncProcessQueue s
  | drops => exact writes_popPacket s
  | sends => exact (writes_of_fields s _ _ _ _).trans (writes_asyncProcessQueue _)
  | finishes => exact (writes_of_fields s _ _ _ _).trans (writes_popPacket _)

theorem writes_drain {fuel n : Nat} (h : drain net fuel n s = some t) : Writes s t := by
  induction fuel generalizing s n with
  | zero => simp [drain] at h
  | succ fuel ih =>
    have hone : Writes s (s.handleQueue (net n)).1 := (handleQueue_handles (net n) s).writes
    rcases hh : s.handleQueue (net n) with ⟨u, goesOn⟩
    simp only [drain, hh] at h hone
    cases goesOn with
    | false => exact Option.some.inj h ▸ hone
    | true => exact hone.trans (ih h)

theorem writes_writeHandlerWrapper (net : Net) (s : Socket) :
    Writes s (s.writeHandlerWrapper net) :=
  (writes_of_fields s _ _ _ _).trans (handleQueue_handles (net 0) _).writes

theorem update_writes {fuel : Nat} {more : Bool} (h : s.update net fuel = some (t, more)) :
    Writes s t ∧ (more = false → t.closed = true) := by
  unfold update at h
  split_ifs at h with hc
  · obtain ⟨rfl, rfl⟩ := Prod.mk.inj (Option.some.inj h)
    exact ⟨.refl s, fun _ => hc⟩
  · obtain ⟨rfl, rfl⟩ := Prod.mk.inj (Option.some.inj h)
    exact ⟨.refl s, by simp⟩
  · obtain ⟨u, hd, hut⟩ := Option.map_eq_some_iff.mp h
    obtain ⟨rfl, rfl⟩ := Prod.mk.inj hut
    exact ⟨writes_drain hd, by simp⟩

theorem isOpen_of_closed (h : s.closed = true) : s.isOpen = false := by simp [isOpen, h]

end Socket
end Warhead
