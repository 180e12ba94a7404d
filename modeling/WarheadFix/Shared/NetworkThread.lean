import WarheadFix.Shared.SocketLife

/-! A network thread and its sockets. Other threads add sockets under the lock at any
moment, also between two steps of the sweep over the live ones, and sessions close at any
moment. The counter is an `int32`. -/

namespace Warhead
open Lib

def addInt32 (a b : Int) : Int := Int.bmod (a + b) (2 ^ 32)

/-- The members, the sockets themselves by name, the sockets ever added and the calls of
`SocketRemoved`; `sweep` is the place of the next socket to update while a tick runs. A
removed socket is out of `sockets` at once, as after the `erase` at the end of the sweep. -/
structure NetworkThread (ι : Type) where
  connections : Int
  newSockets : List ι
  sockets : List ι
  socket : ι → Socket
  added : List ι
  removed : List ι
  sweep : Option Nat

namespace NetworkThread
variable {ι : Type}

def new : NetworkThread ι := ⟨0, [], [], fun _ => .new, [], [], none⟩

def addSocket (t : NetworkThread ι) (i : ι) : NetworkThread ι :=
  { t with
    connections := addInt32 t.connections 1
    newSockets := t.newSockets ++ [i]
    added := t.added ++ [i] }

def addNewSocket (t : NetworkThread ι) (i : ι) : NetworkThread ι :=
  if !(t.socket i).isOpen then
    { t with removed := t.removed ++ [i], connections := addInt32 t.connections (-1) }
  else { t with sockets := t.sockets ++ [i] }

def addNewSockets (t : NetworkThread ι) : NetworkThread ι :=
  { t.newSockets.foldl addNewSocket t with newSockets := [] }

section Steps
variable [DecidableEq ι]

def setSocket (t : NetworkThread ι) (i : ι) (s : Socket) : NetworkThread ι :=
  { t with socket := Function.update t.socket i s }

def updateSocket (net : Net) (t : NetworkThread ι) (cursor : Nat) (i : ι) :
    Option (NetworkThread ι) :=
  ((t.socket i).update net ((t.socket i).writeQueue.length + 1)).map fun
    | (s, true) => { t.setSocket i s with sweep := some (cursor + 1) }
    | (s, false) =>
      { t.setSocket i (if s.isOpen then s.closeSocket else s) with
        removed := t.removed ++ [i]
        connections := addInt32 t.connections (-1)
        sockets := t.sockets.eraseIdx cursor }

inductive Event (ι : Type) where
  | addSocket (i : ι)
  | closeSocket (i : ι)
  | delayedCloseSocket (i : ι)
  | queuePacket (i : ι) (buffer : MessageBuffer)
  | writeReady (i : ι) (net : Net)
  | updateBegins
  | updateSocket (net : Net)
  | updateEnds

/-- A socket is added once, and is marked closing only when it is live. -/
def step (t : NetworkThread ι) : Event ι → Option (NetworkThread ι)
  | .addSocket i => if i ∈ t.added then none else some (t.addSocket i)
  | .closeSocket i => some (t.setSocket i (t.socket i).closeSocket)
  | .delayedCloseSocket i =>
    if i ∈ t.sockets then some (t.setSocket i (t.socket i).delayedCloseSocket) else none
  | .queuePacket i buffer => some (t.setSocket i ((t.socket i).queuePacket buffer))
  | .writeReady i net =>
    if (t.socket i).writes = [] then none
    else some (t.setSocket i ((t.socket i).writeHandlerWrapper net))
  | .updateBegins => if t.sweep.isSome then none else some { t.addNewSockets with sweep := some 0 }
  | .updateSocket net =>
    match t.sweep with
    | none => none
    | some cursor =>
      match t.sockets[cursor]? with
      | none => none
      | some i => t.updateSocket net cursor i
  | .updateEnds =>
    match t.sweep with
    | none => none
    | some cursor => if cursor = t.sockets.length then some { t with sweep := none } else none

def system (ι : Type) [DecidableEq ι] : System (NetworkThread ι) (Event ι) := ⟨new, step⟩

end Steps

/-! ## Where the sockets are -/

/-- Every added socket is in one place; `waiting` are the new sockets not yet looked at. -/
structure Accounted (waiting : List ι) (t : NetworkThread ι) : Prop where
  places : (waiting ++ t.sockets ++ t.removed).Perm t.added
  nodup : t.added.Nodup
  connections : t.connections = Int.bmod (waiting.length + t.sockets.length) (2 ^ 32)
  removed : ∀ i ∈ t.removed, (t.socket i).closed = true
  closing : ∀ i, (t.socket i).closing = true → i ∈ t.sockets ++ t.removed
  closesOnce : ∀ i, (t.socket i).ClosesOnce

variable {t : NetworkThread ι} {waiting : List ι}

theorem addInt32_bmod (a b : Int) : addInt32 (Int.bmod a (2 ^ 32)) b = Int.bmod (a + b) (2 ^ 32) := by
  unfold addInt32
  exact Int.bmod_add_bmod

theorem Accounted.addNewSocket {i : ι} (h : Accounted (i :: waiting) t) :
    Accounted waiting (t.addNewSocket i) := by
  have hnot : i ∉ t.sockets ++ t.removed := by
    have hnd := h.places.nodup_iff.mpr h.nodup
    simp only [List.append_assoc, List.cons_append, List.nodup_cons, List.mem_append] at hnd
    simp only [List.mem_append]
    tauto
  have hclosing : (t.socket i).closing = false := by
    simpa using mt (h.closing i) hnot
  unfold NetworkThread.addNewSocket
  split_ifs with hopen
  · have hclosed : (t.socket i).closed = true := by simpa [Socket.isOpen, hclosing] using hopen
    refine ⟨?_, h.nodup, ?_, ?_, ?_, h.closesOnce⟩
    · refine List.Perm.trans ?_ h.places
      simp only [← List.append_assoc]
      exact List.perm_append_singleton _ _
    · simp only [h.connections, addInt32_bmod, List.length_cons]
      congr 1
      omega
    · exact List.forall_mem_append.mpr ⟨h.removed, List.forall_mem_singleton.mpr hclosed⟩
    · intro j hj
      have := h.closing j hj
      simp only [List.mem_append] at this ⊢
      tauto
  · refine ⟨?_, h.nodup, ?_, h.removed, ?_, h.closesOnce⟩
    · refine List.Perm.trans ?_ h.places
      simp only [← List.append_assoc]
      exact (List.perm_append_singleton _ _).append_right _
    · simp only [h.connections, List.length_cons, List.length_append, List.length_nil]
      congr 1
      omega
    · intro j hj
      have := h.closing j hj
      simp only [List.mem_append] at this ⊢
      tauto

theorem Accounted.foldl_addNewSocket (h : Accounted waiting t) :
    Accounted [] (waiting.foldl NetworkThread.addNewSocket t) := by
  induction waiting generalizing t with
  | nil => exact h
  | cons i waiting ih => exact ih h.addNewSocket

def Inv (t : NetworkThread ι) : Prop := t.Accounted t.newSockets

theorem Inv.addNewSockets (h : t.Inv) : t.addNewSockets.Inv :=
  have hall := Accounted.foldl_addNewSocket h
  ⟨hall.places, hall.nodup, hall.connections, hall.removed, hall.closing, hall.closesOnce⟩

theorem Inv.addSocket {i : ι} (h : t.Inv) (hi : i ∉ t.added) : (t.addSocket i).Inv where
  places := by
    have hmove : (t.newSockets ++ ([i] ++ (t.sockets ++ t.removed))).Perm
        (t.newSockets ++ ((t.sockets ++ t.removed) ++ [i])) :=
      List.perm_append_comm.append_left _
    simp only [← List.append_assoc] at hmove
    exact hmove.trans (h.places.append_right [i])
  nodup := by
    refine List.nodup_append.mpr ⟨h.nodup, List.nodup_singleton i, ?_⟩
    rintro a ha b hb rfl
    exact hi (List.mem_singleton.mp hb ▸ ha)
  connections := by
    simp only [NetworkThread.addSocket, h.connections, addInt32_bmod, List.length_append,
      List.length_singleton]
    congr 1
    omega
  removed := h.removed
  closing := h.closing
  closesOnce := h.closesOnce

theorem Inv.connections_eq (h : t.Inv) :
    t.connections = Int.bmod (t.added.length - t.removed.length) (2 ^ 32) := by
  have hlength := h.places.length_eq
  rw [List.length_append, List.length_append] at hlength
  rw [h.connections]
  congr 1
  omega

def Keeps (t u : NetworkThread ι) : Prop := u.added = t.added ∧ t.removed <+: u.removed

theorem Keeps.trans {u v : NetworkThread ι} (h : t.Keeps u) (hu : u.Keeps v) : t.Keeps v :=
  ⟨hu.1.trans h.1, h.2.trans hu.2⟩

theorem keeps_foldl_addNewSocket (is : List ι) (t : NetworkThread ι) :
    t.Keeps (is.foldl addNewSocket t) := by
  induction is generalizing t with
  | nil => exact ⟨rfl, List.prefix_refl _⟩
  | cons i is ih =>
    refine Keeps.trans ?_ (ih (t.addNewSocket i))
    unfold addNewSocket
    split_ifs
    · exact ⟨rfl, List.prefix_append _ _⟩
    · exact ⟨rfl, List.prefix_refl _⟩

section Runs
variable [DecidableEq ι]

theorem forall_setSocket (P : ι → Socket → Prop) {i : ι} {s : Socket} (hi : P i s)
    (h : ∀ j, P j (t.socket j)) : ∀ j, P j ((t.setSocket i s).socket j) :=
  (Function.forall_update_iff t.socket P).mpr ⟨hi, fun j _ => h j⟩

theorem Accounted.setSocket {i : ι} {s : Socket} (h : t.Accounted waiting)
    (hs : Socket.Ages (t.socket i) s) : (t.setSocket i s).Accounted waiting where
  places := h.places
  nodup := h.nodup
  connections := h.connections
  removed := forall_setSocket (fun j s => j ∈ t.removed → s.closed = true)
    (fun hi => hs.closed (h.removed i hi)) h.removed
  closing := forall_setSocket (fun j s => s.closing = true → j ∈ t.sockets ++ t.removed)
    (fun hi => h.closing i (hs.closing ▸ hi)) h.closing
  closesOnce := forall_setSocket (fun _ s => s.ClosesOnce) (hs.closesOnce (h.closesOnce i))
    h.closesOnce

theorem Inv.delayedCloseSocket {i : ι} (h : t.Inv) (hi : i ∈ t.sockets) :
    (t.setSocket i (t.socket i).delayedCloseSocket).Inv where
  places := h.places
  nodup := h.nodup
  connections := h.connections
  removed := forall_setSocket (fun j s => j ∈ t.removed → s.closed = true) (h.removed i) h.removed
  closing := forall_setSocket (fun j s => s.closing = true → j ∈ t.sockets ++ t.removed)
    (fun _ => List.mem_append_left _ hi) h.closing
  closesOnce := forall_setSocket (fun _ s => s.ClosesOnce) (h.closesOnce i) h.closesOnce

theorem Inv.updateSocket {u : NetworkThread ι} {net : Net} {cursor : Nat} {i : ι} (h : t.Inv)
    (hi : t.sockets[cursor]? = some i) (hu : t.updateSocket net cursor i = some u) : u.Inv := by
  obtain ⟨⟨s, more⟩, hs, hsu⟩ := Option.map_eq_some_iff.mp hu
  obtain ⟨hwrites, hgone⟩ := Socket.update_writes hs
  have hages := hwrites.toAges
  cases more with
  | true =>
    subst hsu
    have hset := Accounted.setSocket h hages
    exact ⟨hset.places, hset.nodup, hset.connections, hset.removed, hset.closing, hset.closesOnce⟩
  | false =>
    have hclosed : s.closed = true := hgone rfl
    simp only [Socket.isOpen_of_closed hclosed, Bool.false_eq_true, if_false] at hsu
    subst hsu
    have hset := Accounted.setSocket h hages
    obtain ⟨hlt, hget⟩ := List.getElem?_eq_some_iff.mp hi
    have hperm : (i :: t.sockets.eraseIdx cursor).Perm t.sockets := by
      rw [← hget]
      exact List.getElem_cons_eraseIdx_perm hlt
    refine ⟨?_, h.nodup, ?_, ?_, ?_, hset.closesOnce⟩
    · refine List.Perm.trans ?_ h.places
      simp only [List.append_assoc]
      refine List.Perm.append_left _ (List.Perm.trans ?_ (hperm.append_right t.removed))
      rw [← List.append_assoc]
      exact List.perm_append_singleton i _
    · have hlen := hperm.length_eq
      simp only [List.length_cons] at hlen
      simp only [h.connections, addInt32_bmod, NetworkThread.setSocket]
      congr 1
      omega
    · refine List.forall_mem_append.mpr ⟨hset.removed, List.forall_mem_singleton.mpr ?_⟩
      simpa [NetworkThread.setSocket] using hclosed
    · intro j hj
      rcases List.mem_append.mp (hset.closing j hj) with hj | hj
      · rcases List.mem_cons.mp (hperm.mem_iff.mpr hj) with rfl | hj
        · exact List.mem_append_right _ (List.mem_append_right _ (List.mem_singleton_self _))
        · exact List.mem_append_left _ hj
      · exact List.mem_append_right _ (List.mem_append_left _ hj)

theorem step_cases {u : NetworkThread ι} {e : Event ι} (h : t.step e = some u) :
    (∃ i, e = .addSocket i ∧ i ∉ t.added ∧ u = t.addSocket i) ∨
    (∃ i s, u = t.setSocket i s ∧ (Socket.Ages (t.socket i) s ∨
      i ∈ t.sockets ∧ s = (t.socket i).delayedCloseSocket)) ∨
    u = { t.addNewSockets with sweep := some 0 } ∨
    (∃ net cursor i, t.sockets[cursor]? = some i ∧ t.updateSocket net cursor i = some u) ∨
    u = { t with sweep := none } := by
  cases e with
  | addSocket i =>
    simp only [NetworkThread.step, Option.ite_none_left_eq_some, Option.some.injEq] at h
    exact .inl ⟨i, rfl, h.1, h.2.symm⟩
  | closeSocket i =>
    exact .inr (.inl ⟨i, _, (Option.some.inj h).symm, .inl (Socket.ages_closeSocket _)⟩)
  | delayedCloseSocket i =>
    simp only [NetworkThread.step, Option.ite_none_right_eq_some, Option.some.injEq] at h
    exact .inr (.inl ⟨i, _, h.2.symm, .inr ⟨h.1, rfl⟩⟩)
  | queuePacket i buffer =>
    exact .inr (.inl ⟨i, _, (Option.some.inj h).symm, .inl (Socket.ages_of_flags rfl rfl rfl)⟩)
  | writeReady i net =>
    simp only [NetworkThread.step, Option.ite_none_left_eq_some, Option.some.injEq] at h
    exact .inr (.inl ⟨i, _, h.2.symm, .inl (Socket.writes_writeHandlerWrapper _ _).toAges⟩)
  | updateBegins =>
    simp only [NetworkThread.step, Option.ite_none_left_eq_some, Option.some.injEq] at h
    exact .inr (.inr (.inl h.2.symm))
  | updateSocket net =>
    simp only [NetworkThread.step] at h
    split at h
    · cases h
    · split at h
      · cases h
      · next cursor _ _ i hi => exact .inr (.inr (.inr (.inl ⟨net, cursor, i, hi, h⟩)))
  | updateEnds =>
    simp only [NetworkThread.step] at h
    split at h
    · cases h
    · simp only [Option.ite_none_right_eq_some, Option.some.injEq] at h
      exact .inr (.inr (.inr (.inr h.2.symm)))

theorem Inv.step {u : NetworkThread ι} {e : Event ι} (h : t.Inv) (hu : t.step e = some u) :
    u.Inv := by
  rcases step_cases hu with ⟨i, -, hi, rfl⟩ | ⟨i, s, rfl, hages | ⟨hi, rfl⟩⟩ | rfl |
    ⟨net, cursor, i, hi, hupdate⟩ | rfl
  · exact h.addSocket hi
  · exact Accounted.setSocket h hages
  · exact h.delayedCloseSocket hi
  · have hall := h.addNewSockets
    exact ⟨hall.places, hall.nodup, hall.connections, hall.removed, hall.closing, hall.closesOnce⟩
  · exact h.updateSocket hi hupdate
  · exact ⟨h.places, h.nodup, h.connections, h.removed, h.closing, h.closesOnce⟩

theorem keeps_updateSocket {u : NetworkThread ι} {net : Net} {cursor : Nat} {i : ι}
    (h : t.updateSocket net cursor i = some u) : t.Keeps u := by
  obtain ⟨⟨s, more⟩, -, rfl⟩ := Option.map_eq_some_iff.mp h
  cases more with
  | true => exact ⟨rfl, List.prefix_refl _⟩
  | false => exact ⟨rfl, List.prefix_append _ _⟩

theorem keeps_step {u : NetworkThread ι} {e : Event ι} (h : t.step e = some u)
    (he : ∀ i, e ≠ .addSocket i) : t.Keeps u := by
  rcases step_cases h with ⟨i, hadd, -, -⟩ | ⟨i, s, rfl, -⟩ | rfl |
    ⟨net, cursor, i, -, hupdate⟩ | rfl
  · exact absurd hadd (he i)
  · exact ⟨rfl, List.prefix_refl _⟩
  · exact keeps_foldl_addNewSocket t.newSockets t
  · exact keeps_updateSocket hupdate
  · exact ⟨rfl, List.prefix_refl _⟩

theorem removed_prefix {u : NetworkThread ι} {e : Event ι} (h : t.step e = some u) :
    t.removed <+: u.removed := by
  by_cases he : ∃ i, e = .addSocket i
  · obtain ⟨i, rfl⟩ := he
    simp only [NetworkThread.step, Option.ite_none_left_eq_some, Option.some.injEq] at h
    exact h.2 ▸ List.prefix_refl _
  · exact (keeps_step h (not_exists.mp he)).2

theorem inv_of_reachable (h : (system ι).Reachable t) : t.Inv := by
  refine h.invariant ?_ fun s e u => Inv.step
  refine ⟨.nil, .nil, ?_, ?_, ?_, ?_⟩
  · simp [system, new]
  · simp [system, new]
  · simp [system, new, Socket.new]
  · simp [system, new, Socket.ClosesOnce, Socket.new]

/-- In every reachable state the counter is the number of new and live sockets, as the
`int32` it is; a socket that was added is new, live or removed, and only one of these; it is
removed once and not while it is open; and `OnClose` has run once for a closed socket. -/
theorem connections_accounted {t : NetworkThread ι} (h : (system ι).Reachable t) :
    t.connections = Int.bmod (t.newSockets.length + t.sockets.length) (2 ^ 32) ∧
    (t.newSockets.length + t.sockets.length < 2 ^ 31 →
      t.connections = t.newSockets.length + t.sockets.length) ∧
    (∀ i, t.newSockets.count i + t.sockets.count i + t.removed.count i =
      if i ∈ t.added then 1 else 0) ∧
    (∀ i ∈ t.removed, t.removed.count i = 1 ∧ (t.socket i).isOpen = false) ∧
    ∀ i, (t.socket i).onCloseRuns = if (t.socket i).closed then 1 else 0 := by
  have hinv := inv_of_reachable h
  have hcount : ∀ i, t.newSockets.count i + t.sockets.count i + t.removed.count i =
      if i ∈ t.added then 1 else 0 := by
    intro i
    rw [← List.count_append, ← List.count_append, hinv.places.count_eq i]
    split_ifs with hi
    · exact List.count_eq_one_of_mem hinv.nodup hi
    · exact List.count_eq_zero.mpr hi
  refine ⟨hinv.connections, fun hlt => ?_, hcount, fun i hi => ⟨?_, ?_⟩, hinv.closesOnce⟩
  · rw [hinv.connections]
    exact Int.bmod_eq_of_le (by omega) (by omega)
  · have hpos : 0 < t.removed.count i := List.count_pos_iff.mpr hi
    have hone := hcount i
    split_ifs at hone <;> omega
  · exact Socket.isOpen_of_closed (hinv.removed i hi)

def closedPair : List (Event Nat) :=
  [.addSocket 0, .addSocket 1, .closeSocket 0, .updateBegins, .addSocket 2, .closeSocket 1,
    .updateSocket fun _ _ => .wouldBlock, .updateEnds]

theorem connections_accounted_closedPair : ∃ t, (system Nat).runFrom new closedPair = some t ∧
    t.removed = [0, 1] ∧ t.connections = 1 ∧ ∀ i ∈ t.removed, t.removed.count i = 1 := by
  refine ⟨_, rfl, rfl, rfl, fun i hi => ?_⟩
  exact ((connections_accounted ⟨closedPair, rfl⟩).2.2.2.1 i hi).1

end Runs
end NetworkThread
end Warhead
