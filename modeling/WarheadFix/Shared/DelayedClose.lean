import WarheadFix.Shared.SocketLife

/-! Closing after the last packet. A socket that is marked for closing closes with the pop that
empties its queue, and only there: marked when nothing is left to write, it stays open. -/

namespace Warhead
open Lib

namespace Socket
variable {s t : Socket} {net : Net} {answer : Nat → WriteResult} {r : Socket × Bool}

structure WaitInv (s : Socket) : Prop where
  writes : s.writes.length = if s.isWritingAsync then 1 else 0
  waiting : s.isWritingAsync = true → s.writeQueue ≠ []

structure Empties (s t : Socket) : Prop extends Writes s t where
  stays_empty : s.writeQueue = [] → t.writeQueue = []
  closes : s.writeQueue ≠ [] → t.writeQueue = [] → s.closing = true → t.closed = true

theorem Empties.refl (s : Socket) : Empties s s where
  toWrites := .refl s
  stays_empty := id
  closes hs ht _ := absurd ht hs

theorem Empties.trans {u : Socket} (h : Empties s t) (h' : Empties t u) : Empties s u where
  toWrites := h.toWrites.trans h'.toWrites
  stays_empty hs := h'.stays_empty (h.stays_empty hs)
  closes hs hu hclosing := by
    by_cases ht : t.writeQueue = []
    · exact h'.closed (h.closes hs ht hclosing)
    · exact h'.closes ht hu (h.closing.trans hclosing)

theorem WaitInv.asyncProcessQueue (h : WaitInv s) (hq : s.writeQueue ≠ []) :
    WaitInv s.asyncProcessQueue.1 := by
  unfold Socket.asyncProcessQueue
  split_ifs with hw
  · exact h
  · refine ⟨?_, fun _ => hq⟩
    rw [List.length_append, h.writes, if_neg hw]
    rfl

theorem WaitInv.of_idle (h : WaitInv s) (hidle : s.isWritingAsync = false)
    (hwrites : t.writes = s.writes) (hasync : t.isWritingAsync = s.isWritingAsync) :
    WaitInv t := by
  refine ⟨?_, fun hw => ?_⟩
  · rw [hwrites, hasync]
    exact h.writes
  · exact absurd (hasync.symm.trans hw) (ne_true_of_eq_false hidle)

theorem popPacket_closes (hq : s.popPacket.writeQueue = []) (hclosing : s.closing = true) :
    s.popPacket.closed = true := by
  rw [popPacket_writeQueue] at hq
  unfold popPacket
  dsimp only
  rw [if_pos (by rw [hclosing, hq]; rfl)]
  exact closeSocket_closed

theorem Handles.empties (h : Handles answer s r) : Empties s r.1 := by
  refine ⟨h.writes, fun hs => ?_, fun hs ht hclosing => ?_⟩
  · cases h with
    | empty => exact hs
    | waits hq => exact absurd (hq.symm.trans hs) (List.cons_ne_nil _ _)
    | drops hq => exact absurd (hq.symm.trans hs) (List.cons_ne_nil _ _)
    | sends hq => exact absurd (hq.symm.trans hs) (List.cons_ne_nil _ _)
    | finishes hq => exact absurd (hq.symm.trans hs) (List.cons_ne_nil _ _)
  · cases h with
    | empty hq => exact absurd hq hs
    | waits =>
      rw [asyncProcessQueue_writeQueue] at ht
      exact absurd ht hs
    | drops => exact popPacket_closes ht hclosing
    | sends =>
      rw [asyncProcessQueue_writeQueue] at ht
      exact absurd ht (List.cons_ne_nil _ _)
    | finishes => exact popPacket_closes ht hclosing

theorem Handles.waitInv (hr : Handles answer s r) (h : WaitInv s)
    (hidle : s.isWritingAsync = false) :
    WaitInv r.1 ∧ (r.2 = true → r.1.isWritingAsync = false) := by
  cases hr with
  | empty => exact ⟨h, fun hmore => absurd hmore Bool.false_ne_true⟩
  | waits hq =>
    refine ⟨h.asyncProcessQueue (hq ▸ List.cons_ne_nil _ _), fun hmore => ?_⟩
    exact absurd (asyncProcessQueue_snd.symm.trans hmore) Bool.false_ne_true
  | drops =>
    refine ⟨h.of_idle hidle popPacket_writes popPacket_isWritingAsync, fun hmore => ?_⟩
    exact absurd hmore Bool.false_ne_true
  | sends =>
    refine ⟨WaitInv.asyncProcessQueue (h.of_idle hidle rfl rfl) (List.cons_ne_nil _ _), ?_⟩
    intro hmore
    exact absurd (asyncProcessQueue_snd.symm.trans hmore) Bool.false_ne_true
  | finishes =>
    refine ⟨h.of_idle hidle popPacket_writes popPacket_isWritingAsync, fun _ => ?_⟩
    exact popPacket_isWritingAsync.trans hidle

theorem drain_empties {fuel n : Nat} (h : WaitInv s) (hidle : s.isWritingAsync = false)
    (hd : drain net fuel n s = some t) : WaitInv t ∧ Empties s t := by
  induction fuel generalizing s n with
  | zero => cases hd
  | succ fuel ih =>
    have hone := handleQueue_handles (net n) s
    obtain ⟨hwait, hgoes⟩ := hone.waitInv h hidle
    have hempties := hone.empties
    rcases hh : s.handleQueue (net n) with ⟨u, goesOn⟩
    rw [hh] at hwait hgoes hempties
    simp only [drain, hh] at hd
    cases goesOn with
    | false =>
      obtain rfl := Option.some.inj hd
      exact ⟨hwait, hempties⟩
    | true =>
      obtain ⟨ht, hut⟩ := ih hwait (hgoes rfl) hd
      exact ⟨ht, hempties.trans hut⟩

theorem update_empties {fuel : Nat} {more : Bool} (h : WaitInv s)
    (hu : s.update net fuel = some (t, more)) : WaitInv t ∧ Empties s t := by
  unfold update at hu
  split_ifs at hu with hclosed hwait
  · obtain ⟨rfl, -⟩ := Prod.mk.inj (Option.some.inj hu)
    exact ⟨h, .refl s⟩
  · obtain ⟨rfl, -⟩ := Prod.mk.inj (Option.some.inj hu)
    exact ⟨h, .refl s⟩
  · obtain ⟨u, hd, hut⟩ := Option.map_eq_some_iff.mp hu
    obtain ⟨rfl, -⟩ := Prod.mk.inj hut
    have hidle : s.isWritingAsync = false := by
      by_contra hw
      exact hwait (by rw [Bool.eq_true_of_not_eq_false hw]; rfl)
    exact drain_empties h hidle hd

theorem update_late (h : WaitInv s) (hclosed : s.closed = false) (hclosing : s.closing = true)
    (hq : s.writeQueue = []) (net : Net) (fuel : Nat) :
    s.update net (fuel + 1) = some (s, true) := by
  -- the guard lets the socket through, to a loop that does nothing
  have hidle : s.isWritingAsync = false := by
    by_contra hw
    exact h.waiting (Bool.eq_true_of_not_eq_false hw) hq
  have hhandle : s.handleQueue (net 0) = (s, false) := by
    rw [handleQueue, hq]
  rw [update, hclosed, hidle, hclosing, hq, drain, hhandle]
  rfl

/-! ## Runs -/

inductive CloseEvent where
  | queuePacket (buffer : MessageBuffer)
  | update (net : Net)
  | writeReady (net : Net)
  | closeSocket
  | delayedCloseSocket

def closeStep (s : Socket) : CloseEvent → Option Socket
  | .queuePacket buffer => some (s.queuePacket buffer)
  | .update net => (s.update net (s.writeQueue.length + 1)).map Prod.fst
  | .writeReady net => if s.writes = [] then none else some (s.writeHandlerWrapper net)
  | .closeSocket => some s.closeSocket
  | .delayedCloseSocket => some s.delayedCloseSocket

/-- The socket, whether the last step was an `Update` that did not find it closed, and whether it
was marked for closing with nothing to write and nothing has been queued since. -/
structure Closing where
  socket : Socket
  updated : Bool
  late : Bool

namespace Closing

def after (s : Closing) (e : CloseEvent) (t : Socket) : Closing :=
  match e with
  | .queuePacket _ => ⟨t, false, false⟩
  | .update _ => ⟨t, !s.socket.closed, s.late⟩
  | .writeReady _ => ⟨t, false, s.late⟩
  | .closeSocket => ⟨t, false, s.late⟩
  | .delayedCloseSocket => ⟨t, false, s.late || s.socket.writeQueue.isEmpty⟩

def step (s : Closing) (e : CloseEvent) : Option Closing := (s.socket.closeStep e).map (s.after e)

def system : System Closing CloseEvent := ⟨⟨new, false, false⟩, step⟩

/-- After the `Update`, a closing socket with nothing to write and no wait is closed, and the next
`Update` gives it up. -/
def Completes (s : Closing) : Prop :=
  s.updated = true → s.socket.closing = true → s.socket.writeQueue = [] → s.socket.writes = [] →
    s.socket.closed = true ∧ ∀ net fuel, s.socket.update net fuel = some (s.socket, false)

/-- No `Update` of a socket that was marked too late. -/
def InTime (s : Closing) : CloseEvent → Prop
  | .update _ => s.socket.closed = false → s.late = false
  | _ => True

structure Inv (s : Closing) : Prop where
  wait : s.socket.WaitInv
  late : s.socket.closed = false →
    (s.late = true ↔ s.socket.closing = true ∧ s.socket.writeQueue = [])

section Steps
variable {s t : Closing} {e : CloseEvent}

theorem Inv.of_empties {k : Socket} {updated : Bool} (h : s.Inv) (hwait : k.WaitInv)
    (hk : s.socket.Empties k) : Inv ⟨k, updated, s.late⟩ := by
  refine ⟨hwait, fun hopen => ?_⟩
  have hclosed : s.socket.closed = false := by
    by_contra hc
    have hkc := hk.closed (Bool.eq_true_of_not_eq_false hc)
    exact Bool.false_ne_true (hopen.symm.trans hkc)
  refine (h.late hclosed).trans ?_
  change _ ↔ k.closing = true ∧ k.writeQueue = []
  rw [hk.closing]
  refine and_congr_right fun hclosing => ⟨hk.stays_empty, fun hempty => ?_⟩
  by_contra hne
  exact Bool.false_ne_true (hopen.symm.trans (hk.closes hne hempty hclosing))

theorem WaitInv.ready (h : s.socket.WaitInv) (hw : s.socket.writes ≠ []) :
    WaitInv { s.socket with isWritingAsync := false, writes := s.socket.writes.tail } := by
  have hlength := h.writes
  refine ⟨?_, fun hf => absurd hf Bool.false_ne_true⟩
  split_ifs at hlength
  · rw [List.length_tail, hlength]
    rfl
  · exact absurd (List.length_eq_zero_iff.mp hlength) hw

theorem Inv.step (h : s.Inv) (hs : s.step e = some t) : t.Inv := by
  obtain ⟨k, hk, rfl⟩ := Option.map_eq_some_iff.mp hs
  cases e with
  | queuePacket buffer =>
    obtain rfl := Option.some.inj hk
    refine ⟨⟨h.wait.writes, fun _ => ?_⟩, fun _ => iff_of_false Bool.false_ne_true ?_⟩
    · exact List.append_ne_nil_of_right_ne_nil _ (List.cons_ne_nil _ _)
    · rintro ⟨-, hnil⟩
      exact List.append_ne_nil_of_right_ne_nil _ (List.cons_ne_nil _ _) hnil
  | update net =>
    obtain ⟨⟨u, more⟩, hu, rfl⟩ := Option.map_eq_some_iff.mp hk
    obtain ⟨hwait, hempties⟩ := update_empties h.wait hu
    exact h.of_empties hwait hempties
  | writeReady net =>
    simp only [closeStep] at hk
    split_ifs at hk with hw
    obtain rfl := Option.some.inj hk
    have hready : WaitInv { s.socket with
        isWritingAsync := false, writes := s.socket.writes.tail } := WaitInv.ready h.wait hw
    have hhandles := handleQueue_handles (net 0) { s.socket with
      isWritingAsync := false, writes := s.socket.writes.tail }
    have hcleared : Empties s.socket { s.socket with
        isWritingAsync := false, writes := s.socket.writes.tail } :=
      ⟨writes_of_fields s.socket _ _ _ _, id, fun hne ht _ => absurd ht hne⟩
    exact h.of_empties (hhandles.waitInv hready rfl).1 (hcleared.trans hhandles.empties)
  | closeSocket =>
    obtain rfl := Option.some.inj hk
    refine ⟨⟨?_, fun hw => ?_⟩, fun hopen => absurd hopen ?_⟩
    · change s.socket.closeSocket.writes.length = if s.socket.closeSocket.isWritingAsync then 1 else 0
      rw [closeSocket_writes, closeSocket_isWritingAsync]
      exact h.wait.writes
    · change s.socket.closeSocket.writeQueue ≠ []
      rw [closeSocket_writeQueue]
      exact h.wait.waiting (closeSocket_isWritingAsync.symm.trans hw)
    · change ¬s.socket.closeSocket.closed = false
      rw [closeSocket_closed]
      exact Bool.true_eq_false_eq_False
  | delayedCloseSocket =>
    obtain rfl := Option.some.inj hk
    refine ⟨⟨h.wait.writes, h.wait.waiting⟩, fun hopen => ?_⟩
    have hlate := h.late hopen
    change (s.late || s.socket.writeQueue.isEmpty) = true ↔ true = true ∧ s.socket.writeQueue = []
    rw [Bool.or_eq_true, List.isEmpty_iff, hlate]
    constructor
    · exact fun hor => ⟨rfl, hor.elim And.right id⟩
    · exact fun hand => .inr hand.2

theorem Inv.step_completes (h : s.Inv) (hs : s.step e = some t) : t.Completes ↔ s.InTime e := by
  obtain ⟨k, hk, rfl⟩ := Option.map_eq_some_iff.mp hs
  cases e with
  | queuePacket buffer => exact iff_of_true (fun hu => absurd hu Bool.false_ne_true) trivial
  | writeReady net => exact iff_of_true (fun hu => absurd hu Bool.false_ne_true) trivial
  | closeSocket => exact iff_of_true (fun hu => absurd hu Bool.false_ne_true) trivial
  | delayedCloseSocket => exact iff_of_true (fun hu => absurd hu Bool.false_ne_true) trivial
  | update net =>
    obtain ⟨⟨u, more⟩, hu, rfl⟩ := Option.map_eq_some_iff.mp hk
    obtain ⟨-, hempties⟩ := update_empties h.wait hu
    constructor
    · intro hcomplete hclosed
      by_contra hlate
      obtain ⟨hclosing, hq⟩ := (h.late hclosed).mp (Bool.eq_true_of_not_eq_false hlate)
      have hsame : u = s.socket := by
        rw [update_late h.wait hclosed hclosing hq] at hu
        exact (Prod.mk.inj (Option.some.inj hu)).1.symm
      have hidle : s.socket.writes = [] := by
        have hlength := h.wait.writes
        split_ifs at hlength with hw
        · exact absurd hq (h.wait.waiting hw)
        · exact List.length_eq_zero_iff.mp hlength
      have hdone := hcomplete (by change (!s.socket.closed) = true; rw [hclosed]; rfl)
        (by change u.closing = true; rw [hsame]; exact hclosing)
        (by change u.writeQueue = []; rw [hsame]; exact hq)
        (by change u.writes = []; rw [hsame]; exact hidle)
      exact Bool.false_ne_true (hclosed.symm.trans (hsame ▸ hdone.1))
    · intro hintime hupdated hclosing hq _
      have hclosed : s.socket.closed = false := (Bool.not_eq_true' _).mp hupdated
      have hne : s.socket.writeQueue ≠ [] := by
        intro hnil
        have hlate := (h.late hclosed).mpr ⟨hempties.closing.symm.trans hclosing, hnil⟩
        exact Bool.false_ne_true ((hintime hclosed).symm.trans hlate)
      have hdone : u.closed = true := hempties.closes hne hq (hempties.closing.symm.trans hclosing)
      refine ⟨hdone, fun net fuel => ?_⟩
      change u.update net fuel = some (u, false)
      rw [update, if_pos hdone]

end Steps

/-- A run leaves no closing socket open that has nothing to write exactly as long as it updates
none that was marked for closing when nothing was left to write. -/
theorem delayed_close_iff (es : List CloseEvent) :
    system.Throughout Completes system.start es ↔ system.Along InTime system.start es := by
  have hstart : system.start.Inv := by
    refine ⟨⟨rfl, fun hw => absurd hw Bool.false_ne_true⟩, fun _ => iff_of_false ?_ ?_⟩
    · exact Bool.false_ne_true
    · rintro ⟨hclosing, -⟩
      exact Bool.false_ne_true hclosing
  exact System.throughout_iff_along (fun _ _ _ h hs => h.step hs)
    (fun _ _ _ h _ hs => h.step_completes hs) hstart fun hu => absurd hu Bool.false_ne_true

/-- Marked before anything was queued, a socket stays open after its `Update`. -/
theorem open_after_late_mark : ¬ ∀ s, system.Reachable s → s.Completes := by
  intro h
  have hrun : system.runFrom system.start [.delayedCloseSocket, .update fun _ _ => .wouldBlock] =
      some ⟨{ new with closing := true }, true, true⟩ := rfl
  have hclosed := (h _ ⟨_, hrun⟩ rfl rfl rfl rfl).1
  exact Bool.false_ne_true hclosed

end Closing
end Socket
end Warhead
