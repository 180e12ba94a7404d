import WarheadFix.Shared.SocketQueue

/-! The completion port build refines the same channel, and with it the law of the outgoing
bytes holds in both builds. A completion takes its bytes off the front packet. -/

namespace Warhead
open Lib

namespace Iocp
open Socket
variable {s t : Socket}

/-- A write in flight offers the active bytes of the front packet; after a failed one the
queue stands still. -/
structure QueueInv (s : Socket) : Prop where
  valid : ∀ b ∈ s.writeQueue, b.Valid
  pending : ∀ b ∈ s.writeQueue, 0 < b.activeSize
  writes : (s.writes = [] ∧ (s.isWritingAsync = false → s.writeQueue = [])) ∨
    ∃ b rest, s.writeQueue = b :: rest ∧ s.writes = [b.active] ∧ s.isWritingAsync = true

inductive WriteEvent where
  | queuePacket (packet : Packet)
  | update
  | written (transferedBytes : Nat)
  | writeError
  | closeSocket
  | delayedCloseSocket

def writeStep (s : Socket) : WriteEvent → Option Socket
  | .queuePacket packet => queuePacket s packet.buffer
  | .update => some (update s).1
  | .written n =>
    match s.writes with
    | [] => none
    | offered :: _ => if 0 < n ∧ n ≤ offered.length then writeHandler s offered n else none
  | .writeError => if s.writes = [] then none else some (writeHandlerError s)
  | .closeSocket => some s.closeSocket
  | .delayedCloseSocket => some s.delayedCloseSocket

def writeSide : System Socket WriteEvent := ⟨new, writeStep⟩

theorem asyncProcessQueue_starts {b : MessageBuffer} {rest : List MessageBuffer}
    (hvalid : ∀ c ∈ s.writeQueue, c.Valid) (hpending : ∀ c ∈ s.writeQueue, 0 < c.activeSize)
    (hq : s.writeQueue = b :: rest) (hw : s.writes = []) (ha : s.isWritingAsync = false) :
    ∃ t, asyncProcessQueue s = some t ∧ QueueInv t ∧ t.channel = s.channel := by
  refine ⟨{ s with isWritingAsync := true, writes := [b.active] }, ?_, ?_, rfl⟩
  · simp [asyncProcessQueue, hq, hw, ha]
  · exact ⟨hvalid, hpending, .inr ⟨b, rest, hq, rfl, rfl⟩⟩

theorem QueueInv.queuePacket (h : QueueInv s) (packet : Packet) :
    ∃ t, Iocp.queuePacket s packet.buffer = some t ∧ QueueInv t ∧
      t.channel = (s.queuePacket packet.buffer).channel := by
  obtain ⟨hvalid, hpending⟩ := packet.behind h.valid h.pending
  cases ha : s.isWritingAsync with
  | true =>
    refine ⟨s.queuePacket packet.buffer, by simp [Iocp.queuePacket, Iocp.asyncProcessQueue,
      Socket.queuePacket, ha], ⟨hvalid, hpending, ?_⟩, rfl⟩
    rcases h.writes with ⟨hw, -⟩ | ⟨b, rest, hq, hw, -⟩
    · exact .inl ⟨hw, fun hf => absurd (ha.symm.trans hf) (by decide)⟩
    · exact .inr ⟨b, rest ++ [packet.buffer], by simp [Socket.queuePacket, hq], hw, ha⟩
  | false =>
    rcases h.writes with ⟨hw, hempty⟩ | ⟨b, rest, -, -, ht⟩
    · have hq : (s.queuePacket packet.buffer).writeQueue = [packet.buffer] := by
        simp [Socket.queuePacket, hempty ha]
      exact asyncProcessQueue_starts hvalid hpending hq hw ha
    · exact absurd (ha.symm.trans ht) (by decide)

def advanced (b : MessageBuffer) (rest : List MessageBuffer) (n : Nat) : List MessageBuffer :=
  if (b.readCompleted n).activeSize = 0 then rest else b.readCompleted n :: rest

theorem activeBytes_advanced {b : MessageBuffer} (hb : b.Valid) {n : Nat} (hn : n ≤ b.activeSize)
    (rest : List MessageBuffer) :
    activeBytes (b :: rest) = b.active.take n ++ activeBytes (advanced b rest n) := by
  have hsplit : activeBytes (b :: rest) =
      b.active.take n ++ ((b.readCompleted n).active ++ activeBytes rest) := by
    rw [activeBytes_cons, ← List.append_assoc, b.take_append_active n]
  rw [hsplit]
  unfold advanced
  split_ifs with h0
  · rw [(MessageBuffer.active_eq_nil_iff (MessageBuffer.valid_readCompleted hb hn)).mpr h0,
      List.nil_append]
  · rfl

theorem mem_advanced {b c : MessageBuffer} {rest : List MessageBuffer} {n : Nat}
    (h : c ∈ advanced b rest n) :
    (c = b.readCompleted n ∧ 0 < c.activeSize) ∨ c ∈ rest := by
  unfold advanced at h
  split_ifs at h with h0
  · exact .inr h
  · rcases List.mem_cons.mp h with rfl | h
    · exact .inl ⟨rfl, Nat.pos_of_ne_zero h0⟩
    · exact .inr h

theorem QueueInv.writeHandler {offered : Bytes} {ws : List Bytes} {n : Nat} (h : QueueInv s)
    (hw : s.writes = offered :: ws) (hn : n ≤ offered.length) :
    ∃ t, Iocp.writeHandler s offered n = some t ∧ QueueInv t ∧
      Channel.Advances s.channel t.channel := by
  rcases h.writes with ⟨hnil, -⟩ | ⟨b, rest, hq, hone, -⟩
  · simp [hnil] at hw
  obtain ⟨rfl, rfl⟩ : offered = b.active ∧ ws = [] := by simpa [hone, eq_comm] using hw
  have hbmem : b ∈ s.writeQueue := hq ▸ List.mem_cons_self ..
  have hb : b.Valid := h.valid b hbmem
  rw [MessageBuffer.length_active hb] at hn
  -- the socket with the completion accounted for, before the next write is started
  let u : Socket := { s with
    isWritingAsync := false
    writes := []
    accepted := s.accepted ++ b.active.take n
    writeQueue := advanced b rest n }
  have hvalid : ∀ c ∈ u.writeQueue, c.Valid := by
    intro c hc
    rcases mem_advanced hc with ⟨rfl, -⟩ | hc
    · exact MessageBuffer.valid_readCompleted hb hn
    · exact h.valid c (hq ▸ List.mem_cons_of_mem _ hc)
  have hpending : ∀ c ∈ u.writeQueue, 0 < c.activeSize := by
    intro c hc
    rcases mem_advanced hc with ⟨-, hpos⟩ | hc
    · exact hpos
    · exact h.pending c (hq ▸ List.mem_cons_of_mem _ hc)
  have hadv : Channel.Advances s.channel u.channel := by
    refine ⟨rfl, b.active.take n, ?_, rfl⟩
    change activeBytes s.writeQueue = _
    rw [hq, activeBytes_advanced hb hn]
    rfl
  have hrun : Iocp.writeHandler s b.active n =
      if !u.writeQueue.isEmpty then asyncProcessQueue u
      else some (if u.closing then u.closeSocket else u) := by
    simp only [Iocp.writeHandler, hq, hone, List.tail_cons]
    rfl
  cases hrest : u.writeQueue with
  | nil =>
    refine ⟨if u.closing then u.closeSocket else u, by rw [hrun, hrest]; rfl, ?_, ?_⟩
    · split_ifs
      · exact ⟨by simp [hrest], by simp [hrest], .inl ⟨by simp [u], by simp [hrest]⟩⟩
      · exact ⟨hvalid, hpending, .inl ⟨rfl, fun _ => hrest⟩⟩
    · split_ifs
      · rwa [closeSocket_channel]
      · exact hadv
  | cons c cs =>
    obtain ⟨t, ht, hinv, hch⟩ := asyncProcessQueue_starts hvalid hpending hrest rfl rfl
    exact ⟨t, by rw [hrun, hrest]; exact ht, hinv, hch ▸ hadv⟩

theorem QueueInv.closeSocket (h : QueueInv s) : QueueInv s.closeSocket :=
  ⟨by simpa using h.valid, by simpa using h.pending, by simpa using h.writes⟩

theorem writeStep_spec {e : WriteEvent} (h : QueueInv s) (hs : writeStep s e = some t) :
    QueueInv t ∧ (t.channel = s.channel ∨ ∃ d, s.channel.step d = some t.channel) := by
  cases e with
  | queuePacket packet =>
    obtain ⟨u, hu, hinv, hch⟩ := h.queuePacket packet
    obtain rfl := Option.some.inj (hu.symm.trans hs)
    exact ⟨hinv, .inr ⟨_, hch ▸ channel_queuePacket s packet.buffer⟩⟩
  | update =>
    obtain rfl := Option.some.inj hs
    exact ⟨h, .inl rfl⟩
  | written n =>
    simp only [writeStep] at hs
    cases hw : s.writes with
    | nil => simp [hw] at hs
    | cons offered ws =>
      simp only [hw] at hs
      split_ifs at hs with hn
      obtain ⟨u, hu, hinv, hadv⟩ := h.writeHandler hw hn.2
      obtain rfl := Option.some.inj (hu.symm.trans hs)
      exact ⟨hinv, .inr hadv.step⟩
  | writeError =>
    simp only [writeStep] at hs
    split_ifs at hs with hw
    obtain rfl := Option.some.inj hs
    refine ⟨QueueInv.closeSocket ⟨h.valid, h.pending, ?_⟩, .inl closeSocket_channel⟩
    rcases h.writes with ⟨hnil, -⟩ | ⟨b, rest, -, hone, ha⟩
    · exact absurd hnil hw
    · exact .inl ⟨by simp [hone], fun hf => absurd (ha.symm.trans hf) (by decide)⟩
  | closeSocket =>
    obtain rfl := Option.some.inj hs
    exact ⟨h.closeSocket, .inl closeSocket_channel⟩
  | delayedCloseSocket =>
    obtain rfl := Option.some.inj hs
    exact ⟨⟨h.valid, h.pending, h.writes⟩, .inl rfl⟩

def writeSideChannel : System.Simulation writeSide (Channel.system UInt8) where
  view := channel
  inv := QueueInv
  inv_start := ⟨by simp [writeSide, new], by simp [writeSide, new], .inl ⟨rfl, fun _ => rfl⟩⟩
  inv_step _ _ _ h hs := (writeStep_spec h hs).1
  view_start := rfl
  matched _ _ _ h hs := (writeStep_spec h hs).2

end Iocp

/-- In every run of either build, what the socket has accepted and what is still active in
the queue make up all packets queued, in order; with readiness notifications there is a
write outstanding exactly while one is said to be, never a second one, and `Update` ends
whatever the kernel answers; with completion ports there is never a second one either, and
no callback meets an empty queue. -/
theorem outgoing_bytes_conserved :
    (∀ s, Socket.writeSide.Reachable s →
      s.accepted ++ Socket.activeBytes s.writeQueue = Socket.activeBytes s.queued ∧
      s.writes.length = (if s.isWritingAsync then 1 else 0) ∧
      ∀ net, ∃ r, ∀ fuel, s.writeQueue.length < fuel → s.update net fuel = some r) ∧
    (∀ s, Iocp.writeSide.Reachable s →
      s.accepted ++ Socket.activeBytes s.writeQueue = Socket.activeBytes s.queued ∧
      s.writes.length ≤ 1 ∧
      (∀ packet : Socket.Packet, (Iocp.queuePacket s packet.buffer).isSome) ∧
      ∀ offered ∈ s.writes, ∀ n ≤ offered.length, (Iocp.writeHandler s offered n).isSome) := by
  constructor
  · intro s hs
    have hinv : Socket.QueueInv s := Socket.writeSideChannel.inv_reachable hs
    have hch := Channel.conserved_of_reachable (Socket.writeSideChannel.reachable hs)
    exact ⟨hch, hinv.writes, fun net => Socket.update_terminates net s⟩
  · intro s hs
    have hinv : Iocp.QueueInv s := Iocp.writeSideChannel.inv_reachable hs
    have hch := Channel.conserved_of_reachable (Iocp.writeSideChannel.reachable hs)
    refine ⟨hch, ?_, ?_, ?_⟩
    · rcases hinv.writes with ⟨hnil, -⟩ | ⟨b, rest, -, hone, -⟩
      · simp [hnil]
      · simp [hone]
    · intro packet
      obtain ⟨t, ht, -⟩ := hinv.queuePacket packet
      simp [ht]
    · intro offered hmem n hn
      rcases hinv.writes with ⟨hnil, -⟩ | ⟨b, rest, -, hone, -⟩
      · simp [hnil] at hmem
      · obtain rfl : offered = b.active := by simpa [hone] using hmem
        obtain ⟨t, ht, -⟩ := hinv.writeHandler hone hn
        simp [ht]

def Socket.packet (bytes : Bytes) (h : 0 < bytes.length) : Socket.Packet :=
  ⟨⟨bytes.length, 0, bytes⟩, ⟨h.le, le_rfl⟩, h⟩

def Socket.takesTwo : { net : Net // ∀ i, Accepts (net i) } :=
  ⟨fun _ size => .sent (min 2 size), fun _ _ hpos =>
    .inr (.inr ⟨_, rfl, lt_min two_pos hpos, min_le_right _ _⟩)⟩

/-- The kernel takes two bytes of the first packet, is not ready at the next callback, and takes
the third byte at the one after. -/
def Socket.retriedWrites : List Socket.WriteEvent :=
  [.queuePacket (packet [1, 2, 3] (by decide)), .queuePacket (packet [4] (by decide)),
    .update takesTwo, .writeReady ⟨fun _ _ => .wouldBlock, fun _ _ _ => .inl rfl⟩,
    .writeReady takesTwo]

def Iocp.partialWrites : List Iocp.WriteEvent :=
  [.queuePacket (Socket.packet [1, 2, 3] (by decide)), .queuePacket (Socket.packet [4] (by decide)),
    .written 2, .written 1]

theorem outgoing_bytes_conserved_partial :
    (∃ s, Socket.writeSide.runFrom Socket.new Socket.retriedWrites = some s ∧
      s.accepted = [1, 2, 3] ∧ s.accepted ++ Socket.activeBytes s.writeQueue = [1, 2, 3, 4]) ∧
    ∃ s, Iocp.writeSide.runFrom Socket.new Iocp.partialWrites = some s ∧
      s.accepted = [1, 2, 3] ∧ s.writes = [[4]] ∧
      s.accepted ++ Socket.activeBytes s.writeQueue = [1, 2, 3, 4] := by
  have hwrite : Socket.writeSide.Reachable _ := ⟨Socket.retriedWrites, rfl⟩
  have hiocp : Iocp.writeSide.Reachable _ := ⟨Iocp.partialWrites, rfl⟩
  exact ⟨⟨_, rfl, rfl, (outgoing_bytes_conserved.1 _ hwrite).1⟩,
    ⟨_, rfl, rfl, rfl, (outgoing_bytes_conserved.2 _ hiocp).1⟩⟩

end Warhead
