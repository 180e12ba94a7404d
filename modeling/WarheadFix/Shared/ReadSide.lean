import WarheadFix.Shared.ByteBuffer
import WarheadFix.Shared.Socket

/-! Incoming bytes. The read buffer of a socket refines a first-in first-out channel that
can be reset: what is enqueued is what the kernel delivers, what is transferred is what the
message code consumes, and what is pending lies between the two positions, wherever
compaction and growth have moved it. -/

namespace Warhead
open Lib

namespace MessageBuffer
variable {b : MessageBuffer}

theorem valid_reset (b : MessageBuffer) : b.reset.Valid := ⟨le_rfl, Nat.zero_le _⟩

theorem active_reset (b : MessageBuffer) : b.reset.active = [] := by
  simp [active, activeSize, reset]

section Normalize

theorem rpos_normalize (b : MessageBuffer) : b.normalize.rpos = 0 := by
  unfold normalize
  split_ifs with h
  · exact h
  · rfl
  · rfl

theorem wpos_normalize (b : MessageBuffer) : b.normalize.wpos = b.activeSize := by
  unfold normalize
  split_ifs with h
  · simp [activeSize, h]
  · rfl
  · rfl

theorem length_storage_normalize (h : b.Valid) :
    b.normalize.storage.length = b.storage.length := by
  unfold normalize
  split_ifs
  · rfl
  · rfl
  · have hlen : b.active.length = b.activeSize := length_active h
    have hfits : b.activeSize ≤ b.storage.length := (Nat.sub_le _ _).trans h.2
    exact length_overwrite (by rwa [Nat.zero_add, hlen])

theorem valid_normalize (h : b.Valid) : b.normalize.Valid := by
  have hfits : b.activeSize ≤ b.storage.length := (Nat.sub_le _ _).trans h.2
  constructor
  · rw [rpos_normalize]
    exact Nat.zero_le _
  · rwa [wpos_normalize, length_storage_normalize h]

theorem active_normalize (h : b.Valid) : b.normalize.active = b.active := by
  rw [active_of_rpos_zero (rpos_normalize b), wpos_normalize]
  unfold normalize
  split_ifs with h0 heq
  · rw [active, h0, List.drop_zero]
  · have hnone : b.activeSize = 0 := by simp [activeSize, heq]
    rw [(active_eq_nil_iff h).mpr hnone, hnone, List.take_zero]
  · rw [overwrite_zero, ← length_active h, List.take_left]

end Normalize

section EnsureFreeSpace

theorem storage_ensureFreeSpace (b : MessageBuffer) :
    ∃ n, b.ensureFreeSpace.storage = b.storage ++ List.replicate n 0 := by
  unfold ensureFreeSpace
  split_ifs
  · have hgrows : b.storage.length ≤ b.storage.length * 3 / 2 := by omega
    exact ⟨_, resized_of_le hgrows⟩
  · exact ⟨0, (List.append_nil _).symm⟩

theorem positions_ensureFreeSpace (b : MessageBuffer) :
    b.ensureFreeSpace.rpos = b.rpos ∧ b.ensureFreeSpace.wpos = b.wpos := by
  unfold ensureFreeSpace
  split_ifs <;> exact ⟨rfl, rfl⟩

theorem length_storage_ensureFreeSpace (b : MessageBuffer) :
    b.storage.length ≤ b.ensureFreeSpace.storage.length := by
  obtain ⟨n, hn⟩ := storage_ensureFreeSpace b
  rw [hn, List.length_append]
  exact Nat.le_add_right _ _

theorem valid_ensureFreeSpace (h : b.Valid) : b.ensureFreeSpace.Valid := by
  obtain ⟨hr, hw⟩ := positions_ensureFreeSpace b
  rw [Valid, hr, hw]
  exact ⟨h.1, h.2.trans (length_storage_ensureFreeSpace b)⟩

theorem active_ensureFreeSpace (h : b.Valid) : b.ensureFreeSpace.active = b.active := by
  obtain ⟨n, hn⟩ := storage_ensureFreeSpace b
  obtain ⟨hr, hw⟩ := positions_ensureFreeSpace b
  have hlen : b.activeSize ≤ (b.storage.drop b.rpos).length := by
    rw [List.length_drop]
    exact Nat.sub_le_sub_right h.2 _
  have hrpos : b.rpos ≤ b.storage.length := h.1.trans h.2
  rw [active, active, activeSize, hr, hw, hn, List.drop_append_of_le_length hrpos]
  exact List.take_append_of_le_length hlen

theorem remainingSpace_ensureFreeSpace (h : b.Valid) (hsize : 2 ≤ b.storage.length) :
    0 < b.ensureFreeSpace.remainingSpace := by
  -- growth by a half of something is growth
  unfold ensureFreeSpace
  split_ifs with hfull
  · have hw : b.wpos ≤ b.storage.length := h.2
    simp only [remainingSpace, resize, length_resized]
    omega
  · exact Nat.pos_of_ne_zero hfull

end EnsureFreeSpace

theorem active_write {ε : Type} {data : Bytes} (h : b.Valid)
    (hspace : data.length ≤ b.remainingSpace) :
    ∃ c, (b.write data : Outcome ε MessageBuffer) = .ok c ∧ c.Valid ∧
      c.storage.length = b.storage.length ∧ c.active = b.active ++ data := by
  have hfits : b.wpos + data.length ≤ b.storage.length := by
    have := h.2
    unfold remainingSpace at hspace
    omega
  by_cases hne : data = []
  · exact ⟨b, if_pos hne, h, rfl, by rw [hne, List.append_nil]⟩
  · refine ⟨_, write_eq_ok hne hfits, ?_, length_overwrite hfits, ?_⟩
    · refine ⟨h.1.trans (Nat.le_add_right _ _), ?_⟩
      rwa [length_overwrite hfits]
    · have hw : (b.storage.take b.wpos).length = b.wpos := List.length_take_of_le h.2
      have hr : b.rpos ≤ (b.storage.take b.wpos).length := hw.symm ▸ h.1
      have hcount : b.wpos + data.length - b.rpos =
          ((b.storage.take b.wpos).drop b.rpos ++ data).length := by
        rw [List.length_append, List.length_drop, hw]
        exact Nat.sub_add_comm h.1
      simp only [active, activeSize]
      rw [overwrite, List.append_assoc, List.drop_append_of_le_length hr, ← List.append_assoc,
        hcount, List.take_left, List.drop_take]

end MessageBuffer

/-- The read buffer of a socket with the read it has outstanding. Beside them stand the bytes
received since the last reset and those of them that have been consumed. -/
structure ReadSide where
  buffer : MessageBuffer
  outstanding : Option ReadRequest
  received : Bytes
  consumed : Bytes

namespace ReadSide

inductive Event where
  | asyncRead
  | completed (data : Bytes)
  | readCompleted (bytes : Nat)
  | reset

def offered (s : ReadSide) : MessageBuffer := s.buffer.normalize.ensureFreeSpace

def asyncRead (s : ReadSide) : ReadSide :=
  { s with
    buffer := s.offered
    outstanding := some ⟨s.offered.wpos, s.offered.remainingSpace⟩ }

/-- A completion puts its bytes at the write pointer. No state follows where they would not
fit into the storage. -/
def completed (s : ReadSide) (data : Bytes) : Option ReadSide :=
  match (s.buffer.write data : Result MessageBuffer) with
  | .ok buffer => some { s with buffer, outstanding := none, received := s.received ++ data }
  | .error _ => none

def step (s : ReadSide) : Event → Option ReadSide
  | .asyncRead => some s.asyncRead
  | .completed data =>
    match s.outstanding with
    | none => none
    | some r => if data.length ≤ r.space then s.completed data else none
  | .readCompleted bytes =>
    if bytes ≤ s.buffer.activeSize then
      some { s with
        buffer := s.buffer.readCompleted bytes
        consumed := s.consumed ++ s.buffer.active.take bytes }
    else none
  | .reset => some { s with buffer := s.buffer.reset, received := [], consumed := [] }

def start : ReadSide := ⟨Socket.new.readBuffer, none, [], []⟩

def system : System ReadSide Event := ⟨start, step⟩

def channel (s : ReadSide) : Channel UInt8 := ⟨s.received, s.consumed, s.buffer.active⟩

/-- The positions are in order, the storage never shrinks, and what an outstanding read was
offered is still there: at the write pointer, if no reset has taken that back. -/
structure Inv (s : ReadSide) : Prop where
  valid : s.buffer.Valid
  size : Socket.READ_BLOCK_SIZE ≤ s.buffer.storage.length
  space : ∀ r, s.outstanding = some r → r.space ≤ s.buffer.remainingSpace
  pos : ∀ r, s.outstanding = some r → r.pos = s.buffer.wpos ∨ s.buffer.wpos = 0

variable {s t : ReadSide}

theorem Inv.valid_offered (h : s.Inv) : s.offered.Valid :=
  MessageBuffer.valid_ensureFreeSpace (MessageBuffer.valid_normalize h.valid)

theorem Inv.active_offered (h : s.Inv) : s.offered.active = s.buffer.active := by
  have hnormal := MessageBuffer.valid_normalize h.valid
  rw [offered, MessageBuffer.active_ensureFreeSpace hnormal,
    MessageBuffer.active_normalize h.valid]

theorem Inv.size_offered (h : s.Inv) : Socket.READ_BLOCK_SIZE ≤ s.offered.storage.length := by
  have hnormal := MessageBuffer.length_storage_normalize h.valid
  exact (hnormal.symm ▸ h.size).trans (MessageBuffer.length_storage_ensureFreeSpace _)

theorem Inv.space_offered (h : s.Inv) : 0 < s.offered.remainingSpace := by
  have hnormal := MessageBuffer.valid_normalize h.valid
  refine MessageBuffer.remainingSpace_ensureFreeSpace hnormal ?_
  rw [MessageBuffer.length_storage_normalize h.valid]
  exact (by decide : 2 ≤ Socket.READ_BLOCK_SIZE).trans h.size

theorem Inv.asyncRead (h : s.Inv) : s.asyncRead.Inv where
  valid := h.valid_offered
  size := h.size_offered
  space r hr := by
    obtain rfl := Option.some.inj hr
    exact le_rfl
  pos r hr := by
    obtain rfl := Option.some.inj hr
    exact .inl rfl

theorem Inv.completed {r : ReadRequest} {data : Bytes} (h : s.Inv)
    (hr : s.outstanding = some r) (hfits : data.length ≤ r.space) :
    ∃ t, s.completed data = some t ∧ t.Inv ∧
      s.channel.step (.enqueue data) = some t.channel := by
  have hspace : data.length ≤ s.buffer.remainingSpace := hfits.trans (h.space r hr)
  obtain ⟨c, hc, hvalid, hsize, hactive⟩ := MessageBuffer.active_write (ε := Exn) h.valid hspace
  refine ⟨{ s with buffer := c, outstanding := none, received := s.received ++ data }, ?_, ?_, ?_⟩
  · rw [ReadSide.completed, hc]
  · have hnone : ∀ r, (none : Option ReadRequest) ≠ some r := fun r => (Option.some_ne_none r).symm
    exact ⟨hvalid, hsize ▸ h.size, fun r hr => absurd hr (hnone r), fun r hr => absurd hr (hnone r)⟩
  · simp only [Channel.step, channel, hactive]

theorem asyncRead_of_socket {k : Socket} (hopen : k.isOpen = true) (hreads : k.reads = [])
    (rs cs : Bytes) :
    (⟨k.asyncRead.readBuffer, k.asyncRead.reads.head?, rs, cs⟩ : ReadSide) =
      asyncRead ⟨k.readBuffer, k.reads.head?, rs, cs⟩ := by
  simp only [Socket.asyncRead, if_pos hopen, hreads, List.nil_append, List.head?_cons]
  rfl

theorem completed_of_socket {k : Socket} {r : ReadRequest} {data : Bytes}
    (hreads : k.reads = [r]) (hpos : r.pos = k.readBuffer.wpos)
    (hfits : k.readBuffer.wpos + data.length ≤ k.readBuffer.storage.length) (rs cs : Bytes) :
    completed ⟨k.readBuffer, k.reads.head?, rs, cs⟩ data =
      some ⟨(k.received r data).readBuffer.writeCompleted data.length,
        (k.received r data).reads.head?, rs ++ data, cs⟩ := by
  have hwrite : (k.readBuffer.write data : Result MessageBuffer) =
      .ok ((k.received r data).readBuffer.writeCompleted data.length) := by
    by_cases hne : data = []
    · have hnone : overwrite k.readBuffer.storage r.pos [] = k.readBuffer.storage := by
        simp [overwrite]
      simp only [hne, MessageBuffer.write, if_true, Socket.received, hnone,
        MessageBuffer.writeCompleted, List.length_nil, Nat.add_zero]
    · rw [MessageBuffer.write_eq_ok hne hfits, Socket.received, hpos,
        MessageBuffer.writeCompleted]
  rw [completed, hwrite]
  simp only [Socket.received, hreads, List.tail_cons, List.head?_nil]

theorem step_spec {e : Event} (h : s.Inv) (hs : s.step e = some t) :
    t.Inv ∧ (t.channel = s.channel ∨ ∃ d, s.channel.resetStep d = some t.channel) := by
  cases e with
  | asyncRead =>
    obtain rfl := Option.some.inj hs
    refine ⟨h.asyncRead, .inl ?_⟩
    simp only [channel, ReadSide.asyncRead, h.active_offered]
  | completed data =>
    simp only [step] at hs
    cases hr : s.outstanding with
    | none => simp [hr] at hs
    | some r =>
      simp only [hr] at hs
      split_ifs at hs with hfits
      obtain ⟨u, hu, hinv, hch⟩ := h.completed hr hfits
      obtain rfl := Option.some.inj (hu.symm.trans hs)
      exact ⟨hinv, .inr ⟨some (.enqueue data), hch⟩⟩
  | readCompleted bytes =>
    simp only [step] at hs
    split_ifs at hs with hle
    obtain rfl := Option.some.inj hs
    refine ⟨⟨MessageBuffer.valid_readCompleted h.valid hle, h.size, h.space, h.pos⟩, .inr ?_⟩
    refine ⟨some (.transfer bytes), ?_⟩
    have hlen : bytes ≤ s.buffer.active.length := by
      rwa [MessageBuffer.length_active h.valid]
    simp only [Channel.resetStep, Channel.step, channel, MessageBuffer.active_readCompleted]
    exact if_pos hlen
  | reset =>
    obtain rfl := Option.some.inj hs
    refine ⟨⟨MessageBuffer.valid_reset _, h.size, fun r hr => ?_, fun _ _ => .inr rfl⟩,
      .inr ⟨none, ?_⟩⟩
    · have hwhole : s.buffer.remainingSpace ≤ s.buffer.reset.remainingSpace :=
        Nat.sub_le_sub_left (Nat.zero_le _) _
      exact (h.space r hr).trans hwhole
    · simp only [Channel.resetStep, channel, MessageBuffer.active_reset]

theorem inv_start : start.Inv where
  valid := ⟨le_rfl, Nat.zero_le _⟩
  size := by
    simp only [start, Socket.new, MessageBuffer.new_resize, MessageBuffer.ofSize,
      List.length_replicate, le_refl]
  space r hr := (Option.some_ne_none r hr.symm).elim
  pos r hr := (Option.some_ne_none r hr.symm).elim

def simulation : System.Simulation system (Channel.resettable UInt8) where
  view := channel
  inv := Inv
  inv_start := inv_start
  inv_step _ _ _ h hs := (step_spec h hs).1
  view_start := rfl
  matched _ _ _ h hs := (step_spec h hs).2

/-- In every reachable state the positions are in order, the active bytes are those received
since the last reset and not yet consumed, compaction and growth leave them alone, the space
offered by a read is not empty, and as many bytes as it offers can be delivered. -/
theorem read_buffer_refines_fifo (s : ReadSide) (h : system.Reachable s) :
    s.buffer.rpos ≤ s.buffer.wpos ∧ s.buffer.wpos ≤ s.buffer.storage.length ∧
    s.consumed ++ s.buffer.active = s.received ∧
    s.buffer.normalize.active = s.buffer.active ∧
    s.buffer.ensureFreeSpace.active = s.buffer.active ∧
    s.offered.active = s.buffer.active ∧
    0 < s.offered.remainingSpace ∧
    ∀ r, s.outstanding = some r → (r.pos = s.buffer.wpos ∨ s.buffer.wpos = 0) ∧
      ∀ data : Bytes, data.length ≤ r.space →
        ∃ t, s.step (.completed data) = some t ∧ t.buffer.active = s.buffer.active ++ data := by
  have hinv : s.Inv := simulation.inv_reachable h
  have hch := Channel.conserved_of_resettable (simulation.reachable h)
  refine ⟨hinv.valid.1, hinv.valid.2, hch, MessageBuffer.active_normalize hinv.valid,
    MessageBuffer.active_ensureFreeSpace hinv.valid, hinv.active_offered, hinv.space_offered, ?_⟩
  refine fun r hr => ⟨hinv.pos r hr, fun data hfits => ?_⟩
  obtain ⟨t, ht, -, hstep⟩ := hinv.completed hr hfits
  refine ⟨t, ?_, (congrArg Channel.pending (Option.some.inj hstep)).symm⟩
  simp only [step, hr, if_pos hfits, ht]

/-- A full buffer grows; what it held is consumed, and what came after is moved to the front. -/
def grownAndMoved : List Event :=
  [.asyncRead, .completed (List.replicate Socket.READ_BLOCK_SIZE 56), .asyncRead,
    .completed [49, 48], .readCompleted Socket.READ_BLOCK_SIZE, .asyncRead]

theorem read_buffer_refines_fifo_moved :
    ∃ s t, system.runFrom system.start grownAndMoved = some s ∧
      s.buffer.storage.length = 6144 ∧ s.buffer.rpos = 0 ∧
      s.consumed ++ s.buffer.active = s.received ∧
      s.step (.completed [51]) = some t ∧ t.buffer.active = [49, 48, 51] := by
  obtain ⟨s, hs, h⟩ := (Option.any_eq_true (fun s : ReadSide => decide (
    s.buffer.storage.length = 6144 ∧ s.buffer.rpos = 0 ∧ s.buffer.active = [49, 48] ∧
      s.outstanding = some ⟨2, 6142⟩)) (system.runFrom system.start grownAndMoved)).mp
    (by decide +kernel)
  obtain ⟨hsize, hrpos, hactive, hread⟩ := of_decide_eq_true h
  obtain ⟨-, -, hconsumed, -, -, -, -, hdeliver⟩ := read_buffer_refines_fifo s ⟨_, hs⟩
  obtain ⟨t, ht, hbytes⟩ := (hdeliver _ hread).2 [51] (by decide)
  rw [hactive] at hbytes
  exact ⟨s, t, hs, hsize, hrpos, hconsumed, ht, hbytes⟩

end ReadSide
end Warhead
