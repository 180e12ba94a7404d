import WarheadFix.Lib.LinkChain
import WarheadFix.Lib.System

/-! The multi-producer single-consumer queue that allocates its nodes. Every atomic load, store
and exchange is one step, and so are an allocation, the read of the data and a deletion. The
consumer deletes the node in front of the one it returns, and an access to a deleted node
is a fault. -/

namespace Warhead
open Lib

namespace MpscQueueNonIntrusive

structure Node (α ν : Type) where
  data : Option α
  next : Option ν

inductive Producer (α ν : Type) where
  | idle
  | created (node : ν) (input : α)
  | exchanged (prevHead node : ν)

inductive Consumer (α ν : Type) where
  | idle
  | tailLoaded (tail : ν)
  | nextLoaded (tail next : ν)
  | dataRead (tail next : ν) (result : α)
  | tailStored (tail : ν) (result : α)

/-- The memory and the two pointers, the threads, and what has been enqueued and returned, in
the order of the exchanges and of the returns. -/
structure State (τ α ν : Type) where
  heap : ν → Option (Node α ν)
  head : ν
  tail : ν
  producers : τ → Producer α ν
  consumer : Consumer α ν
  enqueued : List α
  returned : List α
  faulted : Bool

inductive Event (τ α ν : Type) where
  | create (thread : τ) (input : α) (node : ν)
  | exchange (thread : τ)
  | store (thread : τ)
  | dequeue

variable {τ α ν : Type}

namespace State

def access (s : State τ α ν) (a : ν) (f : Node α ν → State τ α ν) : State τ α ν :=
  match s.heap a with
  | none => { s with faulted := true }
  | some node => f node

variable [DecidableEq ν]

def dequeue (s : State τ α ν) : State τ α ν :=
  match s.consumer with
  | .idle => { s with consumer := .tailLoaded s.tail }
  | .tailLoaded tail =>
    s.access tail fun node =>
      match node.next with
      | none => { s with consumer := .idle }
      | some next => { s with consumer := .nextLoaded tail next }
  | .nextLoaded tail next =>
    s.access next fun node =>
      match node.data with
      | none => { s with faulted := true }
      | some result => { s with consumer := .dataRead tail next result }
  | .dataRead tail next result => { s with tail := next, consumer := .tailStored tail result }
  | .tailStored tail result =>
    s.access tail fun _ => { s with
      heap := Function.update s.heap tail none
      consumer := .idle
      returned := s.returned ++ [result] }

variable [DecidableEq τ]

/-- A new node is anywhere where there is none. -/
def step (s : State τ α ν) : Event τ α ν → Option (State τ α ν)
  | .create thread input node =>
    match s.producers thread, s.heap node with
    | .idle, none => some { s with
        heap := Function.update s.heap node (some ⟨some input, none⟩)
        producers := Function.update s.producers thread (.created node input) }
    | _, _ => none
  | .exchange thread =>
    match s.producers thread with
    | .created node input => some { s with
        head := node
        producers := Function.update s.producers thread (.exchanged s.head node)
        enqueued := s.enqueued ++ [input] }
    | _ => none
  | .store thread =>
    match s.producers thread with
    | .exchanged prevHead node => some <| s.access prevHead fun prev => { s with
        heap := Function.update s.heap prevHead (some { prev with next := some node })
        producers := Function.update s.producers thread .idle }
    | _ => none
  | .dequeue => some s.dequeue

def start (stub : ν) : State τ α ν where
  heap := Function.update (fun _ => none) stub (some ⟨none, none⟩)
  head := stub
  tail := stub
  producers _ := .idle
  consumer := .idle
  enqueued := []
  returned := []
  faulted := false

end State

def runs (τ α ν : Type) [DecidableEq τ] [DecidableEq ν] (stub : ν) :
    System (State τ α ν) (Event τ α ν) := ⟨State.start stub, State.step⟩

namespace State

def link (s : State τ α ν) (a : ν) : Option ν := (s.heap a).bind Node.next

def data (s : State τ α ν) (a : ν) : Option α := (s.heap a).bind Node.data

def Pending (s : State τ α ν) (a b : ν) : Prop := ∃ thread, s.producers thread = .exchanged a b

end State

def Producer.node : Producer α ν → Option ν
  | idle => none
  | created node _ => some node
  | exchanged _ node => some node

def Consumer.taken : Consumer α ν → List α
  | tailStored _ result => [result]
  | _ => []

def Consumer.Knows (s : State τ α ν) (chain : List ν) : Consumer α ν → Prop
  | idle => True
  | tailLoaded tail => tail = s.tail
  | nextLoaded tail next => tail = s.tail ∧ s.link tail = some next
  | dataRead tail next result =>
    tail = s.tail ∧ s.link tail = some next ∧ s.data next = some result
  | tailStored tail _ => tail ∉ chain ∧ (s.heap tail).isSome ∧
    ∀ thread, (s.producers thread).node ≠ some tail

/-- The nodes from the tail to the head are a chain of live nodes, a new node is not in it, and
what is enqueued is what is returned, what is taken and the data of the chain. -/
structure Inv (s : State τ α ν) (chain : List ν) : Prop where
  chained : Chained s.link s.Pending s.head chain
  first : chain.head? = some s.tail
  live : ∀ a ∈ chain, (s.heap a).isSome
  created : ∀ thread node input, s.producers thread = .created node input →
    node ∉ chain ∧ s.heap node = some ⟨some input, none⟩
  unique : Exclusive Producer.node s.producers
  knows : s.consumer.Knows s chain
  order : s.enqueued.map some = (s.returned ++ s.consumer.taken).map some ++ chain.tail.map s.data
  sound : s.faulted = false

section Invariant
variable {s : State τ α ν} {chain : List ν}

theorem Inv.cons (h : Inv s chain) : ∃ rest, chain = s.tail :: rest :=
  List.head?_eq_some_iff.mp h.first

theorem Inv.known (h : Inv s chain) {c : Consumer α ν} (hc : s.consumer = c) :
    c.Knows s chain := hc ▸ h.knows

theorem Inv.pending_mem (h : Inv s chain) {a b : ν} (hp : s.Pending a b) :
    a ∈ chain ∧ b ∈ chain.tail := by
  obtain ⟨hadj, -⟩ := h.chained.pending a b hp
  exact ⟨hadj.mem_left, hadj.mem_tail⟩

theorem State.access_of_isSome {a : ν} (ha : (s.heap a).isSome) :
    ∃ node, s.heap a = some node ∧ ∀ f, s.access a f = f node := by
  obtain ⟨node, hnode⟩ := Option.isSome_iff_exists.mp ha
  exact ⟨node, hnode, fun f => by rw [State.access, hnode]⟩

theorem Inv.behind (h : Inv s chain) {next : ν} (hlink : s.link s.tail = some next) :
    ∃ rest, chain = s.tail :: next :: rest ∧
      Chained s.link s.Pending s.head (next :: rest) := by
  obtain ⟨rest, rfl⟩ := h.cons
  obtain ⟨rest, rfl, hrest⟩ := h.chained.advance hlink
  exact ⟨rest, rfl, hrest⟩

theorem Inv.data_isSome (h : Inv s chain) {a : ν} (ha : a ∈ chain.tail) : (s.data a).isSome := by
  have hmem : s.data a ∈ s.enqueued.map some := by
    rw [h.order]
    exact List.mem_append_right _ (List.mem_map_of_mem ha)
  obtain ⟨x, -, hx⟩ := List.mem_map.mp hmem
  rw [← hx]
  rfl

theorem Inv.node_live (h : Inv s chain) {thread : τ} {node : ν}
    (hnode : (s.producers thread).node = some node) : (s.heap node).isSome := by
  cases hp : s.producers thread with
  | idle => rw [hp] at hnode; cases hnode
  | created n input =>
    rw [hp] at hnode
    obtain rfl := Option.some.inj hnode
    rw [(h.created thread _ input hp).2]
    rfl
  | exchanged prevHead n =>
    rw [hp] at hnode
    obtain rfl := Option.some.inj hnode
    exact h.live _ (List.mem_of_mem_tail (h.pending_mem ⟨thread, hp⟩).2)

theorem Consumer.Knows.mono {c : Consumer α ν} {t : State τ α ν} {chain' : List ν}
    (h : c.Knows s chain) (htail : t.tail = s.tail)
    (hlink : ∀ a x, s.link a = some x → t.link a = some x)
    (hdata : ∀ a x, s.data a = some x → t.data a = some x)
    (hstored : ∀ a, a ∉ chain → (s.heap a).isSome →
      (∀ thread, (s.producers thread).node ≠ some a) →
      a ∉ chain' ∧ (t.heap a).isSome ∧ ∀ thread, (t.producers thread).node ≠ some a) :
    c.Knows t chain' := by
  cases c with
  | idle => trivial
  | tailLoaded tail => exact h.trans htail.symm
  | nextLoaded tail next => exact ⟨h.1.trans htail.symm, hlink _ _ h.2⟩
  | dataRead tail next result =>
    exact ⟨h.1.trans htail.symm, hlink _ _ h.2.1, hdata _ _ h.2.2⟩
  | tailStored tail result => exact hstored tail h.1 h.2.1 h.2.2

theorem State.isSome_of_link {a b : ν} (h : s.link a = some b) : (s.heap a).isSome := by
  obtain ⟨node, hnode, -⟩ := Option.bind_eq_some_iff.mp h
  rw [hnode]
  rfl

theorem State.isSome_of_data {a : ν} {x : α} (h : s.data a = some x) : (s.heap a).isSome := by
  obtain ⟨node, hnode, -⟩ := Option.bind_eq_some_iff.mp h
  rw [hnode]
  rfl

theorem Inv.consume (h : Inv s chain) {c c' : Consumer α ν} (hc : s.consumer = c)
    (hknows : c'.Knows s chain) (htaken : c'.taken = c.taken) :
    Inv { s with consumer := c' } chain where
  chained := h.chained
  first := h.first
  live := h.live
  created := h.created
  unique := h.unique
  knows := hknows.mono rfl (fun _ _ => id) (fun _ _ => id) fun _ ha hlive hn => ⟨ha, hlive, hn⟩
  order := by
    change s.enqueued.map some = (s.returned ++ c'.taken).map some ++ _
    rw [htaken, ← hc]
    exact h.order
  sound := h.sound

theorem Inv.storeTail (h : Inv s chain) {tail next : ν} {result : α}
    (hc : s.consumer = .dataRead tail next result) :
    Inv { s with tail := next, consumer := .tailStored tail result } chain.tail := by
  -- the old node is out of reach from here on
  obtain ⟨rfl, hlink, hdata⟩ := h.known hc
  obtain ⟨rest, rfl, hchained⟩ := h.behind hlink
  have hnodup := (List.nodup_cons.mp h.chained.nodup).1
  exact {
    chained := hchained
    first := rfl
    live := fun a ha => h.live a (List.mem_cons_of_mem _ ha)
    created := fun t n x hn =>
      ⟨fun hmem => (h.created t n x hn).1 (List.mem_cons_of_mem _ hmem), (h.created t n x hn).2⟩
    unique := h.unique
    knows := by
      refine ⟨hnodup, h.live _ (List.mem_cons_self ..), fun t ht => ?_⟩
      cases hp : s.producers t with
      | idle => rw [hp] at ht; cases ht
      | created n x =>
        rw [hp] at ht
        obtain rfl := Option.some.inj ht
        exact (h.created t _ x hp).1 (List.mem_cons_self ..)
      | exchanged prevHead n =>
        rw [hp] at ht
        obtain rfl := Option.some.inj ht
        exact hnodup (h.pending_mem ⟨t, hp⟩).2
    order := by
      rw [h.order, hc]
      simp only [Consumer.taken, List.append_nil, List.tail_cons, List.map_cons, hdata,
        List.map_append, List.append_assoc, List.map_nil, List.singleton_append]
      rfl
    sound := h.sound }

section Producers
variable [DecidableEq τ] {f : τ → Producer α ν} {p : Producer α ν} {thread : τ} {a b : ν}

theorem exists_exchanged_update : (∃ t, Function.update f thread p t = .exchanged a b) ↔
    p = .exchanged a b ∨ ∃ t, t ≠ thread ∧ f t = .exchanged a b :=
  exists_thread_update fun q : Producer α ν => q = .exchanged a b

theorem exists_exchanged (thread : τ) : (∃ t, f t = .exchanged a b) ↔
    f thread = .exchanged a b ∨ ∃ t, t ≠ thread ∧ f t = .exchanged a b :=
  exists_thread (fun q : Producer α ν => q = .exchanged a b) thread

theorem forall_node_update : (∀ t, (Function.update f thread p t).node ≠ some a) ↔
    p.node ≠ some a ∧ ∀ t, t ≠ thread → (f t).node ≠ some a :=
  forall_thread_update fun q : Producer α ν => q.node ≠ some a

theorem forall_created_update {Q : ν → α → Prop} :
    (∀ t n x, Function.update f thread p t = .created n x → Q n x) ↔
      (∀ n x, p = .created n x → Q n x) ∧ ∀ t, t ≠ thread → ∀ n x, f t = .created n x → Q n x :=
  forall_thread_update fun q : Producer α ν => ∀ n x, q = .created n x → Q n x

end Producers

variable [DecidableEq τ]

theorem Inv.exchange (h : Inv s chain) {thread : τ} {input : α} {node : ν}
    (hcreated : s.producers thread = .created node input) :
    Inv { s with
      head := node
      producers := Function.update s.producers thread (.exchanged s.head node)
      enqueued := s.enqueued ++ [input] } (chain ++ [node]) := by
  obtain ⟨hout, hnode⟩ := h.created thread node input hcreated
  have hlink : s.link node = none := by rw [State.link, hnode]; rfl
  have hdata : s.data node = some input := by rw [State.data, hnode]; rfl
  have hother : ∀ t, t ≠ thread → (s.producers t).node ≠ some node :=
    h.unique.other (by rw [hcreated]; rfl)
  obtain ⟨rest, hrest⟩ := h.cons
  exact {
    chained := by
      refine h.chained.exchange hout hlink fun a b => ?_
      rw [State.Pending, exists_exchanged_update, State.Pending, exists_exchanged thread, hcreated]
      simp only [Producer.exchanged.injEq, reduceCtorEq, false_or, @eq_comm _ s.head,
        @eq_comm _ node]
      exact or_comm
    first := by rw [hrest]; rfl
    live := by
      refine List.forall_mem_append.mpr ⟨h.live, List.forall_mem_singleton.mpr ?_⟩
      rw [hnode]
      rfl
    created := by
      refine forall_created_update.mpr ⟨?_, ?_⟩
      · rintro n x ⟨⟩
      · intro t ht n x hn
        obtain ⟨hn_out, hn_heap⟩ := h.created t n x hn
        have hne : n ≠ node := by
          rintro rfl
          exact hother t ht (by rw [hn]; rfl)
        exact ⟨List.not_mem_append hn_out (mt List.mem_singleton.mp hne), hn_heap⟩
    unique := by
      refine h.unique.update fun n hn t ht => ?_
      obtain rfl := Option.some.inj hn
      exact hother t ht
    knows := by
      refine h.knows.mono rfl (fun _ _ => id) (fun _ _ => id) fun a ha hsome hn => ?_
      have hne : a ≠ node := by
        rintro rfl
        exact hn thread (by rw [hcreated]; rfl)
      refine ⟨List.not_mem_append ha (mt List.mem_singleton.mp hne), hsome, ?_⟩
      refine forall_node_update.mpr ⟨?_, ?_⟩
      · exact fun heq => hne (Option.some.inj heq).symm
      · exact fun t _ => hn t
    order := by
      have htail : (chain ++ [node]).tail = chain.tail ++ [node] := by rw [hrest]; rfl
      change (s.enqueued ++ [input]).map some = _ ++ (chain ++ [node]).tail.map s.data
      rw [htail, List.map_append, h.order, List.append_assoc]
      congr 1
      rw [List.map_append, List.map_singleton, List.map_singleton, hdata]
    sound := h.sound }

variable [DecidableEq ν]

theorem Inv.create (h : Inv s chain) {thread : τ} {input : α} {node : ν}
    (hidle : s.producers thread = .idle) (hfree : s.heap node = none) :
    Inv { s with
      heap := Function.update s.heap node (some ⟨some input, none⟩)
      producers := Function.update s.producers thread (.created node input) } chain := by
  -- The allocator gives out no address that is in use, so every node in use is another one.
  have hne : ∀ a, (s.heap a).isSome → a ≠ node := by
    rintro a ha rfl
    rw [hfree] at ha
    exact Bool.false_ne_true ha
  have hheap : ∀ a, (s.heap a).isSome →
      Function.update s.heap node (some ⟨some input, none⟩) a = s.heap a :=
    fun a ha => Function.update_of_ne (hne a ha) _ _
  exact {
    chained := by
      refine h.chained.congr (fun a ha => ?_) fun a b => ?_
      · exact congrArg (Option.bind · Node.next) (hheap a (h.live a ha))
      · rw [State.Pending, exists_exchanged_update, State.Pending, exists_exchanged thread, hidle]
        simp only [reduceCtorEq]
    first := h.first
    live := fun a ha => (congrArg Option.isSome (hheap a (h.live a ha))).trans (h.live a ha)
    created := by
      refine forall_created_update.mpr ⟨?_, ?_⟩
      · rintro n x ⟨⟩
        exact ⟨fun hmem => hne _ (h.live _ hmem) rfl, Function.update_self _ _ _⟩
      · intro t _ n x ht
        obtain ⟨hout, hn⟩ := h.created t n x ht
        exact ⟨hout, (hheap n (hn ▸ rfl)).trans hn⟩
    unique := by
      refine h.unique.update fun n hn t _ ht => ?_
      obtain rfl := Option.some.inj hn
      exact hne _ (h.node_live ht) rfl
    knows := by
      refine h.knows.mono rfl (fun a x hx => ?_) (fun a x hx => ?_) fun a ha hsome hnode => ?_
      · exact (congrArg (Option.bind · Node.next) (hheap a (State.isSome_of_link hx))).trans hx
      · exact (congrArg (Option.bind · Node.data) (hheap a (State.isSome_of_data hx))).trans hx
      · refine ⟨ha, (congrArg Option.isSome (hheap a hsome)).trans hsome, ?_⟩
        refine forall_node_update.mpr ⟨?_, ?_⟩
        · exact fun heq => hne a hsome (Option.some.inj heq).symm
        · exact fun t _ => hnode t
    order := by
      refine h.order.trans (congrArg _ (List.map_congr_left fun a ha => ?_))
      have hlive := h.live a (List.mem_of_mem_tail ha)
      exact (congrArg (Option.bind · Node.data) (hheap a hlive)).symm
    sound := h.sound }

/-! ### The store of a link -/

def State.stored (s : State τ α ν) (thread : τ) (prevHead node : ν) (prev : Node α ν) :
    State τ α ν := { s with
  heap := Function.update s.heap prevHead (some { prev with next := some node })
  producers := Function.update s.producers thread .idle }

section Store
variable {thread : τ} {prevHead node : ν} {prev : Node α ν}

theorem State.heap_stored {a : ν} (ha : a ≠ prevHead) :
    (s.stored thread prevHead node prev).heap a = s.heap a :=
  Function.update_of_ne ha _ _

theorem State.heap_stored_self : (s.stored thread prevHead node prev).heap prevHead =
    some { prev with next := some node } :=
  Function.update_self _ _ _

theorem State.isSome_heap_stored (hprev : s.heap prevHead = some prev) (a : ν) :
    ((s.stored thread prevHead node prev).heap a).isSome = (s.heap a).isSome := by
  by_cases ha : a = prevHead
  · rw [ha, State.heap_stored_self, hprev]
    rfl
  · rw [State.heap_stored ha]

theorem State.data_stored (hprev : s.heap prevHead = some prev) (a : ν) :
    (s.stored thread prevHead node prev).data a = s.data a := by
  by_cases ha : a = prevHead
  · rw [ha, State.data, State.data, State.heap_stored_self, hprev]
    rfl
  · rw [State.data, State.data, State.heap_stored ha]

theorem State.link_stored : (s.stored thread prevHead node prev).link =
    Function.update s.link prevHead (some node) := by
  funext a
  by_cases ha : a = prevHead
  · rw [ha, Function.update_self, State.link, State.heap_stored_self]
    rfl
  · rw [Function.update_of_ne ha, State.link, State.link, State.heap_stored ha]

theorem Inv.pending_stored (h : Inv s chain) (hex : s.producers thread = .exchanged prevHead node)
    (x y : ν) : (s.stored thread prevHead node prev).Pending x y ↔
      s.Pending x y ∧ x ≠ prevHead := by
  obtain ⟨hadj, -⟩ := h.chained.pending prevHead node ⟨thread, hex⟩
  rw [State.Pending, State.stored, exists_exchanged_update]
  constructor
  · rintro (hidle | ⟨u, hu, hxy⟩)
    · cases hidle
    · -- two stores into one link would be of the same node, which one producer has
      refine ⟨⟨u, hxy⟩, ?_⟩
      rintro rfl
      have hy : y = node := (h.chained.pending _ _ ⟨u, hxy⟩).1.unique h.chained.nodup hadj
      exact hu (h.unique u thread node (by rw [hxy, hy]; rfl) (by rw [hex]; rfl))
  · rintro ⟨⟨u, hxy⟩, hx⟩
    refine .inr ⟨u, ?_, hxy⟩
    rintro rfl
    exact hx (Producer.exchanged.inj (hxy.symm.trans hex)).1

theorem Inv.store (h : Inv s chain) (hex : s.producers thread = .exchanged prevHead node) :
    ∃ prev, s.heap prevHead = some prev ∧ Inv { s with
      heap := Function.update s.heap prevHead (some { prev with next := some node })
      producers := Function.update s.producers thread .idle } chain := by
  -- the consumer may have caught up with the node, but one without a link is never deleted
  have hp : s.Pending prevHead node := ⟨thread, hex⟩
  obtain ⟨hadj, hnone⟩ := h.chained.pending prevHead node hp
  obtain ⟨prev, hprev⟩ := Option.isSome_iff_exists.mp (h.live _ hadj.mem_left)
  have hsome : ∀ a, ((s.stored thread prevHead node prev).heap a).isSome = (s.heap a).isSome :=
    State.isSome_heap_stored hprev
  have hdata : ∀ a, (s.stored thread prevHead node prev).data a = s.data a :=
    State.data_stored hprev
  have hpending : ∀ x y, (s.stored thread prevHead node prev).Pending x y ↔
      s.Pending x y ∧ x ≠ prevHead := h.pending_stored hex
  refine ⟨prev, hprev, ?_⟩
  change Inv (s.stored thread prevHead node prev) chain
  exact {
    chained := by
      have hchained := h.chained.link hp hpending
      rwa [← State.link_stored] at hchained
    first := h.first
    live := fun a ha => (hsome a).trans (h.live a ha)
    created := by
      refine forall_created_update.mpr ⟨?_, ?_⟩
      · rintro n x ⟨⟩
      · intro u _ n x hn
        obtain ⟨hout, hn⟩ := h.created u n x hn
        have hne : n ≠ prevHead := by
          rintro rfl
          exact hout hadj.mem_left
        exact ⟨hout, (State.heap_stored hne).trans hn⟩
    unique := by
      refine h.unique.update fun n hn => ?_
      cases hn
    knows := by
      refine h.knows.mono rfl (fun a x hx => ?_) (fun a x hx => (hdata a).trans hx)
        fun a ha hlive hn => ⟨ha, (hsome a).trans hlive, ?_⟩
      · have hne : a ≠ prevHead := by
          rintro rfl
          exact absurd (hnone.symm.trans hx) (Option.some_ne_none x).symm
        rw [State.link_stored, Function.update_of_ne hne, hx]
      · refine forall_node_update.mpr ⟨?_, ?_⟩
        · exact (Option.some_ne_none a).symm
        · exact fun u _ => hn u
    order := h.order.trans (congrArg _ (List.map_congr_left fun a _ => (hdata a).symm))
    sound := h.sound }

end Store

omit [DecidableEq τ] in
theorem Inv.delete (h : Inv s chain) {tail : ν} {result : α}
    (hc : s.consumer = .tailStored tail result) :
    ∃ node, s.heap tail = some node ∧ Inv { s with
      heap := Function.update s.heap tail none
      consumer := .idle
      returned := s.returned ++ [result] } chain := by
  obtain ⟨hout, hlive, hn⟩ := h.known hc
  obtain ⟨node, hnode⟩ := Option.isSome_iff_exists.mp hlive
  have hheap : ∀ a, a ≠ tail → Function.update s.heap tail none a = s.heap a :=
    fun a ha => Function.update_of_ne ha _ _
  have hin : ∀ a ∈ chain, Function.update s.heap tail none a = s.heap a :=
    fun a ha => hheap a fun heq => hout (heq ▸ ha)
  refine ⟨node, hnode, ?_⟩
  exact {
    chained := h.chained.congr
      (fun a ha => congrArg (Option.bind · Node.next) (hin a ha)) fun _ _ => Iff.rfl
    first := h.first
    live := fun a ha => (congrArg Option.isSome (hin a ha)).trans (h.live a ha)
    created := by
      intro t n x ht
      obtain ⟨hn_out, hn_heap⟩ := h.created t n x ht
      refine ⟨hn_out, (hheap n ?_).trans hn_heap⟩
      rintro rfl
      exact hn t (by rw [ht]; rfl)
    unique := h.unique
    knows := trivial
    order := by
      refine h.order.trans ?_
      rw [hc]
      simp only [Consumer.taken, List.append_nil]
      refine congrArg _ (List.map_congr_left fun a ha => ?_)
      exact (congrArg (Option.bind · Node.data) (hin a (List.mem_of_mem_tail ha))).symm
    sound := h.sound }

omit [DecidableEq τ] in
theorem Inv.dequeue (h : Inv s chain) : ∃ chain', Inv s.dequeue chain' := by
  unfold State.dequeue
  cases hc : s.consumer with
  | idle => exact ⟨chain, h.consume hc rfl rfl⟩
  | tailLoaded tail =>
    obtain rfl : tail = s.tail := h.known hc
    have hmem : s.tail ∈ chain := List.mem_of_mem_head? h.first
    obtain ⟨node, hnode, haccess⟩ := State.access_of_isSome (h.live _ hmem)
    simp only [haccess]
    cases hnext : node.next with
    | none => exact ⟨chain, h.consume hc trivial rfl⟩
    | some next =>
      have hlink : s.link s.tail = some next := by rw [State.link, hnode, Option.bind_some, hnext]
      exact ⟨chain, h.consume hc ⟨rfl, hlink⟩ rfl⟩
  | nextLoaded tail next =>
    -- The node behind the tail is not the stub, so its data is there.
    obtain ⟨rfl, hlink⟩ := h.known hc
    obtain ⟨rest, rfl, -⟩ := h.behind hlink
    have hmem : next ∈ (s.tail :: next :: rest).tail := List.mem_cons_self ..
    obtain ⟨node, hnode, haccess⟩ := State.access_of_isSome
      (h.live next (List.mem_of_mem_tail hmem))
    obtain ⟨result, hresult⟩ := Option.isSome_iff_exists.mp (h.data_isSome hmem)
    have hdata : node.data = some result := by
      rwa [State.data, hnode, Option.bind_some] at hresult
    simp only [haccess, hdata]
    exact ⟨_, h.consume hc ⟨rfl, hlink, hresult⟩ rfl⟩
  | dataRead tail next result => exact ⟨chain.tail, h.storeTail hc⟩
  | tailStored tail result =>
    obtain ⟨node, hnode, hinv⟩ := h.delete hc
    simp only [State.access, hnode]
    exact ⟨chain, hinv⟩

theorem Inv.step (h : Inv s chain) {e : Event τ α ν} {t : State τ α ν} (ht : s.step e = some t) :
    ∃ chain', Inv t chain' := by
  cases e with
  | create thread input node =>
    simp only [State.step] at ht
    split at ht
    · rename_i hidle hfree
      exact Option.some.inj ht ▸ ⟨chain, h.create hidle hfree⟩
    · cases ht
  | exchange thread =>
    simp only [State.step] at ht
    split at ht
    · rename_i node input hcreated
      exact Option.some.inj ht ▸ ⟨_, h.exchange hcreated⟩
    · cases ht
  | store thread =>
    simp only [State.step] at ht
    split at ht
    · rename_i prevHead node hex
      obtain ⟨prev, hprev, hinv⟩ := h.store hex
      rw [State.access, hprev] at ht
      exact Option.some.inj ht ▸ ⟨chain, hinv⟩
    · cases ht
  | dequeue => exact Option.some.inj ht ▸ h.dequeue

omit [DecidableEq τ] in
theorem inv_start (stub : ν) : Inv (State.start stub : State τ α ν) [stub] := by
  have hstub : (State.start stub : State τ α ν).heap stub = some ⟨none, none⟩ := by
    simp only [State.start, Function.update_self]
  exact {
    chained := {
      nodup := List.nodup_singleton stub
      last_eq := rfl
      next_last := congrArg (Option.bind · Node.next) hstub
      links := fun a b hab => absurd hab Adjacent.not_singleton
      pending := by
        rintro a b ⟨thread, hp⟩
        cases hp }
    first := rfl
    live := List.forall_mem_singleton.mpr (congrArg Option.isSome hstub)
    created := fun thread node input hp => by cases hp
    unique := fun t t' node hp => by cases hp
    knows := trivial
    order := rfl
    sound := rfl }

omit [DecidableEq τ] in
theorem Inv.dequeue_alone (h : Inv s chain) (hidle : s.consumer = .idle)
    (hquiet : ∀ a b, ¬ s.Pending a b) (hmore : s.returned ≠ s.enqueued) :
    ∃ x, (State.dequeue^[5] s).returned = s.returned ++ [x] := by
  obtain ⟨rest, rfl⟩ := h.cons
  have horder : s.enqueued.map some = s.returned.map some ++ rest.map s.data := by
    have hnone : s.consumer.taken = [] := by rw [hidle]; rfl
    have hall := h.order
    rwa [hnone, List.append_nil, List.tail_cons] at hall
  cases rest with
  | nil =>
    rw [List.map_nil, List.append_nil] at horder
    exact absurd ((List.map_injective_iff.mpr (Option.some_injective α)) horder.symm) hmore
  | cons next rest =>
    have hadj : Adjacent (s.tail :: next :: rest) s.tail next :=
      Adjacent.cons_iff.mpr (.inl ⟨rfl, rfl⟩)
    have hlink : s.link s.tail = some next :=
      (h.chained.links _ _ hadj).resolve_right fun hp => hquiet _ _ hp.2
    obtain ⟨result, hdata⟩ := Option.isSome_iff_exists.mp
      (h.data_isSome (List.mem_cons_self ..))
    obtain ⟨first, hfirst, hnext⟩ := Option.bind_eq_some_iff.mp hlink
    obtain ⟨second, hsecond, hresult⟩ := Option.bind_eq_some_iff.mp hdata
    refine ⟨result, ?_⟩
    simp only [Function.iterate_succ, Function.iterate_zero, Function.comp_apply, id_eq,
      State.dequeue, State.access, hidle, hfirst, hnext, hsecond, hresult]

/-- What holds between any two steps: no access has faulted, the elements come back in the order
of the exchanges, those still to come are the data of the linked nodes from the tail on, and
nobody can reach the node that is about to be deleted. -/
structure Safe (s : State τ α ν) : Prop where
  sound : s.faulted = false
  inOrder : s.returned <+: s.enqueued
  kept : ∃ rest, Chained s.link s.Pending s.head (s.tail :: rest) ∧
    s.enqueued.map some = (s.returned ++ s.consumer.taken).map some ++ rest.map s.data ∧
    ∀ tail result, s.consumer = .tailStored tail result → tail ∉ s.tail :: rest
  alone : s.consumer = .idle → (∀ a b, ¬ s.Pending a b) → s.returned ≠ s.enqueued →
    ∃ x, (State.dequeue^[5] s).returned = s.returned ++ [x]
  deleted : ∀ tail result, s.consumer = .tailStored tail result →
    s.head ≠ tail ∧ s.tail ≠ tail ∧ ∀ thread, (s.producers thread).node ≠ some tail ∧
      ∀ prevHead node, s.producers thread = .exchanged prevHead node → prevHead ≠ tail

omit [DecidableEq τ] in
theorem Inv.safe (h : Inv s chain) : Safe s where
  sound := h.sound
  inOrder := by
    have hmap : s.returned.map some <+: s.enqueued.map some := by
      rw [h.order, List.map_append, List.append_assoc]
      exact List.prefix_append _ _
    exact (List.prefix_map_iff_of_injective (Option.some_injective α)).mp hmap
  kept := by
    obtain ⟨rest, rfl⟩ := h.cons
    refine ⟨rest, h.chained, h.order, fun tail result hc => ?_⟩
    exact (h.known hc).1
  alone := h.dequeue_alone
  deleted tail result hc := by
    obtain ⟨hout, -, hn⟩ := h.known hc
    refine ⟨fun heq => ?_, fun heq => ?_, fun thread => ⟨hn thread, fun prevHead node hp => ?_⟩⟩
    · exact hout (heq ▸ h.chained.last_mem)
    · exact hout (heq ▸ List.mem_of_mem_head? h.first)
    · rintro rfl
      exact hout (h.pending_mem ⟨thread, hp⟩).1

/-- Every interleaving of the steps of any number of producers and the consumer is safe. -/
theorem fifo_with_safe_reclamation (stub : ν) (s : State τ α ν)
    (h : (runs τ α ν stub).Reachable s) : Safe s := by
  have hstep : ∀ (s : State τ α ν) e t, (∃ chain, Inv s chain) →
      (runs τ α ν stub).step s e = some t → ∃ chain, Inv t chain := by
    rintro s e t ⟨chain, hs⟩ ht
    exact hs.step ht
  obtain ⟨chain, hinv⟩ := h.invariant ⟨[stub], inv_start stub⟩ hstep
  exact hinv.safe

end Invariant

/-- The consumer takes two elements and deletes the stub and the first node; the address of the
stub is then given out again, and the node there waits for its link. -/
def twoReturned : List (Event Bool Nat Nat) :=
  [.create false 7 1, .exchange false, .create true 8 2, .exchange true, .store true,
    .store false] ++ List.replicate 10 .dequeue ++ [.create false 9 0, .exchange false]

theorem fifo_with_safe_reclamation_twoReturned :
    ∃ s, (runs Bool Nat Nat 0).runFrom (State.start 0) twoReturned = some s ∧
      s.returned = [7, 8] ∧ s.heap 1 = none ∧ s.Pending 2 0 ∧ Safe s := by
  have hreach : (runs Bool Nat Nat 0).Reachable _ := ⟨twoReturned, rfl⟩
  exact ⟨_, rfl, rfl, rfl, ⟨false, rfl⟩, fifo_with_safe_reclamation 0 _ hreach⟩

end MpscQueueNonIntrusive
end Warhead
