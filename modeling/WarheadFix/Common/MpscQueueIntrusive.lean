import WarheadFix.Lib.LinkChain
import WarheadFix.Lib.System

/-! The multi-producer single-consumer queue through links inside the nodes. Every atomic load,
store and exchange is one step. The consumer itself enqueues the dummy, in the middle of
`Dequeue`, to get at the last node; the dummy is out of the queue whenever it does. -/

namespace Warhead
open Lib

namespace MpscQueueIntrusive

inductive Producer (κ : Type) where
  | idle
  | cleared (input : κ)
  | exchanged (prevHead input : κ)

inductive Consumer (κ : Type) where
  | idle
  | tailLoaded (tail : κ)
  | atDummy (next : κ)
  | tailMoved (tail : κ)
  | found (tail next : κ)
  | missing (tail : κ)
  | headSame (tail : κ)
  | dummyCleared (tail : κ)
  | dummyExchanged (tail prevHead : κ)
  | dummyLinked (tail : κ)

/-- The links and the two pointers, the threads, and the nodes whose enqueueing has begun, that
have been exchanged into the head and that have been returned, each in order. -/
structure State (τ κ : Type) where
  next : κ → Option κ
  head : κ
  tail : κ
  producers : τ → Producer κ
  consumer : Consumer κ
  begun : List κ
  enqueued : List κ
  returned : List κ

inductive Event (τ κ : Type) where
  | enqueue (thread : τ) (input : κ)
  | exchange (thread : τ)
  | store (thread : τ)
  | dequeue

variable {τ κ : Type}

namespace State
variable [DecidableEq κ] (dummy : κ)

def follow (s : State τ κ) (tail : κ) : State τ κ :=
  match s.next tail with
  | some next => { s with consumer := .found tail next }
  | none => { s with consumer := .missing tail }

def dequeue (s : State τ κ) : State τ κ :=
  match s.consumer with
  | .idle => { s with consumer := .tailLoaded s.tail }
  | .tailLoaded tail =>
    if tail = dummy then
      match s.next tail with
      | none => { s with consumer := .idle }
      | some next => { s with consumer := .atDummy next }
    else s.follow tail
  | .atDummy next => { s with tail := next, consumer := .tailMoved next }
  | .tailMoved tail => s.follow tail
  | .found tail next =>
    { s with tail := next, consumer := .idle, returned := s.returned ++ [tail] }
  | .missing tail =>
    if tail = s.head then { s with consumer := .headSame tail } else { s with consumer := .idle }
  | .headSame tail =>
    { s with next := Function.update s.next dummy none, consumer := .dummyCleared tail }
  | .dummyCleared tail => { s with head := dummy, consumer := .dummyExchanged tail s.head }
  | .dummyExchanged tail prevHead =>
    { s with next := Function.update s.next prevHead (some dummy), consumer := .dummyLinked tail }
  | .dummyLinked tail =>
    match s.next tail with
    | some next => { s with consumer := .found tail next }
    | none => { s with consumer := .idle }

variable [DecidableEq τ]

/-- Every node is enqueued once, and the dummy by the consumer only. -/
def step (s : State τ κ) : Event τ κ → Option (State τ κ)
  | .enqueue thread input =>
    match s.producers thread with
    | .idle =>
      if input = dummy ∨ input ∈ s.begun then none
      else some { s with
        next := Function.update s.next input none
        producers := Function.update s.producers thread (.cleared input)
        begun := input :: s.begun }
    | _ => none
  | .exchange thread =>
    match s.producers thread with
    | .cleared input => some { s with
        head := input
        producers := Function.update s.producers thread (.exchanged s.head input)
        enqueued := s.enqueued ++ [input] }
    | _ => none
  | .store thread =>
    match s.producers thread with
    | .exchanged prevHead input => some { s with
        next := Function.update s.next prevHead (some input)
        producers := Function.update s.producers thread .idle }
    | _ => none
  | .dequeue => some (s.dequeue dummy)

def start (links : κ → Option κ) : State τ κ where
  next := Function.update links dummy none
  head := dummy
  tail := dummy
  producers _ := .idle
  consumer := .idle
  begun := []
  enqueued := []
  returned := []

end State

def runs (τ κ : Type) [DecidableEq τ] [DecidableEq κ] (dummy : κ) (links : κ → Option κ) :
    System (State τ κ) (Event τ κ) := ⟨State.start dummy links, State.step dummy⟩

def Consumer.owes : Consumer κ → Option κ
  | dummyExchanged _ prevHead => some prevHead
  | _ => none

/-- The head has been exchanged and the link is not yet stored, by a producer or, for the dummy,
by the consumer. -/
def State.Pending (dummy : κ) (s : State τ κ) (a b : κ) : Prop :=
  (∃ thread, s.producers thread = .exchanged a b) ∨ s.consumer.owes = some a ∧ b = dummy

def Producer.input : Producer κ → Option κ
  | idle => none
  | cleared input => some input
  | exchanged _ input => some input

def Consumer.Knows (dummy : κ) (s : State τ κ) (chain : List κ) : Consumer κ → Prop
  | idle => True
  | tailLoaded tail => tail = s.tail
  | atDummy next => s.tail = dummy ∧ s.next dummy = some next
  | tailMoved tail => tail = s.tail ∧ tail ≠ dummy
  | found tail next => tail = s.tail ∧ tail ≠ dummy ∧ s.next tail = some next
  | missing tail => tail = s.tail ∧ tail ≠ dummy
  | headSame tail => tail = s.tail ∧ tail ≠ dummy ∧ dummy ∉ chain
  | dummyCleared tail => tail = s.tail ∧ tail ≠ dummy ∧ dummy ∉ chain ∧ s.next dummy = none
  | dummyExchanged tail _ => tail = s.tail ∧ tail ≠ dummy
  | dummyLinked tail => tail = s.tail ∧ tail ≠ dummy

def real [DecidableEq κ] (dummy : κ) (chain : List κ) : List κ := chain.filter (· ≠ dummy)

/-- The nodes from the tail to the head are a chain, and what is enqueued is what is returned and
the chain without the dummy. -/
structure Inv [DecidableEq κ] (dummy : κ) (s : State τ κ) (chain : List κ) : Prop where
  chained : Chained s.next (s.Pending dummy) s.head chain
  first : chain.head? = some s.tail
  cleared : ∀ thread input, s.producers thread = .cleared input →
    input ∉ chain ∧ input ∉ s.enqueued ∧ s.next input = none
  input : ∀ thread input, (s.producers thread).input = some input →
    input ≠ dummy ∧ input ∈ s.begun
  unique : Exclusive Producer.input s.producers
  begun : ∀ a ∈ s.enqueued, a ≠ dummy ∧ a ∈ s.begun
  nodup : s.enqueued.Nodup
  knows : s.consumer.Knows dummy s chain
  order : s.enqueued = s.returned ++ real dummy chain

section Producers
variable [DecidableEq τ] {f : τ → Producer κ} {p : Producer κ} {thread : τ} {a b : κ}

theorem exists_exchanged_update : (∃ t, Function.update f thread p t = .exchanged a b) ↔
    p = .exchanged a b ∨ ∃ t, t ≠ thread ∧ f t = .exchanged a b :=
  exists_thread_update fun q : Producer κ => q = .exchanged a b

theorem exists_exchanged (thread : τ) : (∃ t, f t = .exchanged a b) ↔
    f thread = .exchanged a b ∨ ∃ t, t ≠ thread ∧ f t = .exchanged a b :=
  exists_thread (fun q : Producer κ => q = .exchanged a b) thread

theorem forall_cleared_update {Q : κ → Prop} :
    (∀ t n, Function.update f thread p t = .cleared n → Q n) ↔
      (∀ n, p = .cleared n → Q n) ∧ ∀ t, t ≠ thread → ∀ n, f t = .cleared n → Q n :=
  forall_thread_update fun q : Producer κ => ∀ n, q = .cleared n → Q n

theorem forall_input_update {Q : κ → Prop} :
    (∀ t n, (Function.update f thread p t).input = some n → Q n) ↔
      (∀ n, p.input = some n → Q n) ∧ ∀ t, t ≠ thread → ∀ n, (f t).input = some n → Q n :=
  forall_thread_update fun q : Producer κ => ∀ n, q.input = some n → Q n

end Producers

section Invariant
variable {s : State τ κ} {dummy : κ} {chain : List κ} [DecidableEq κ]

theorem mem_real {a : κ} : a ∈ real dummy chain ↔ a ∈ chain ∧ a ≠ dummy := by
  simp [real]

theorem real_cons {a : κ} (ha : a ≠ dummy) : real dummy (a :: chain) = a :: real dummy chain := by
  simp [real, ha]

theorem real_dummy : real dummy (dummy :: chain) = real dummy chain := by
  simp [real]

theorem real_concat {a : κ} (ha : a ≠ dummy) :
    real dummy (chain ++ [a]) = real dummy chain ++ [a] := by
  simp [real, ha]

theorem real_concat_dummy : real dummy (chain ++ [dummy]) = real dummy chain := by
  simp [real]

theorem Inv.cons (h : Inv dummy s chain) : ∃ rest, chain = s.tail :: rest :=
  List.head?_eq_some_iff.mp h.first

theorem Inv.known (h : Inv dummy s chain) {c : Consumer κ} (hc : s.consumer = c) :
    c.Knows dummy s chain := hc ▸ h.knows

theorem Inv.behind (h : Inv dummy s chain) {next : κ} (hnext : s.next s.tail = some next) :
    ∃ rest, chain = s.tail :: next :: rest ∧
      Chained s.next (s.Pending dummy) s.head (next :: rest) := by
  obtain ⟨rest, rfl⟩ := h.cons
  obtain ⟨rest, rfl, hrest⟩ := h.chained.advance hnext
  exact ⟨rest, rfl, hrest⟩

theorem Inv.mem_chain (h : Inv dummy s chain) {a : κ} (ha : a ∈ chain) :
    a = dummy ∨ a ∈ s.enqueued := by
  by_cases hd : a = dummy
  · exact .inl hd
  · right
    rw [h.order]
    exact List.mem_append_right _ (mem_real.mpr ⟨ha, hd⟩)

omit [DecidableEq κ] in
theorem Consumer.Knows.mono {c : Consumer κ} {t : State τ κ} {chain' : List κ}
    (h : c.Knows dummy s chain) (htail : t.tail = s.tail)
    (hnext : ∀ a x, s.next a = some x → (a = s.tail ∨ a = dummy ∧ s.tail = dummy) →
      t.next a = some x)
    (hout : dummy ∉ chain → dummy ∉ chain' ∧ (s.next dummy = none → t.next dummy = none)) :
    c.Knows dummy t chain' := by
  cases c with
  | idle => trivial
  | tailLoaded tail => exact h.trans htail.symm
  | atDummy next => exact ⟨htail.trans h.1, hnext _ _ h.2 (.inr ⟨rfl, h.1⟩)⟩
  | tailMoved tail => exact ⟨h.1.trans htail.symm, h.2⟩
  | found tail next => exact ⟨h.1.trans htail.symm, h.2.1, hnext _ _ h.2.2 (.inl h.1)⟩
  | missing tail => exact ⟨h.1.trans htail.symm, h.2⟩
  | headSame tail => exact ⟨h.1.trans htail.symm, h.2.1, (hout h.2.2).1⟩
  | dummyCleared tail =>
    obtain ⟨hdummy, hnone⟩ := hout h.2.2.1
    exact ⟨h.1.trans htail.symm, h.2.1, hdummy, hnone h.2.2.2⟩
  | dummyExchanged tail prevHead => exact ⟨h.1.trans htail.symm, h.2⟩
  | dummyLinked tail => exact ⟨h.1.trans htail.symm, h.2⟩

theorem Inv.consume (h : Inv dummy s chain) {c c' : Consumer κ} (hc : s.consumer = c)
    (hknows : c'.Knows dummy s chain) (howes : c'.owes = c.owes) :
    Inv dummy { s with consumer := c' } chain where
  chained := by
    refine h.chained.congr (fun _ _ => rfl) fun a b => ?_
    rw [State.Pending, howes, ← hc]
    rfl
  first := h.first
  cleared := h.cleared
  input := h.input
  unique := h.unique
  begun := h.begun
  nodup := h.nodup
  knows := hknows.mono rfl (fun _ _ hx _ => hx) fun hout => ⟨hout, id⟩
  order := h.order

theorem Inv.pending_unique (h : Inv dummy s chain) {a b c : κ} (hb : s.Pending dummy a b)
    (hc : s.Pending dummy a c) : b = c :=
  (h.chained.pending a b hb).1.unique h.chained.nodup (h.chained.pending a c hc).1

theorem Inv.link_knows (h : Inv dummy s chain) {a b : κ} (hp : s.Pending dummy a b)
    {c : Consumer κ} {t : State τ κ} (hc : c.Knows dummy s chain) (htail : t.tail = s.tail)
    (hnext : t.next = Function.update s.next a (some b)) : c.Knows dummy t chain := by
  obtain ⟨hadj, hnone⟩ := h.chained.pending a b hp
  refine hc.mono htail (fun x y hx _ => ?_) fun hdummy => ⟨hdummy, fun hempty => ?_⟩
  · have hne : x ≠ a := by
      rintro rfl
      exact absurd (hnone.symm.trans hx) (Option.some_ne_none y).symm
    rw [hnext, Function.update_of_ne hne, hx]
  · have hne : dummy ≠ a := by
      rintro rfl
      exact hdummy hadj.mem_left
    rw [hnext, Function.update_of_ne hne, hempty]

/-! ## The consumer -/

theorem Inv.take (h : Inv dummy s chain) {tail next : κ} (hc : s.consumer = .found tail next) :
    Inv dummy { s with tail := next, consumer := .idle, returned := s.returned ++ [tail] }
      chain.tail := by
  obtain ⟨rfl, hreal, hnext⟩ := h.known hc
  obtain ⟨rest, rfl, hrest⟩ := h.behind hnext
  exact {
    chained := by
      refine hrest.congr (fun _ _ => rfl) fun a b => ?_
      rw [State.Pending, State.Pending, hc]
      rfl
    first := rfl
    cleared := fun t n hn =>
      ⟨fun hmem => (h.cleared t n hn).1 (List.mem_cons_of_mem _ hmem), (h.cleared t n hn).2⟩
    input := h.input
    unique := h.unique
    begun := h.begun
    nodup := h.nodup
    knows := trivial
    order := by
      rw [h.order, real_cons hreal, List.append_assoc]
      rfl }

theorem Inv.passDummy (h : Inv dummy s chain) {next : κ} (hc : s.consumer = .atDummy next) :
    Inv dummy { s with tail := next, consumer := .tailMoved next } chain.tail := by
  obtain ⟨htail, hnext⟩ := h.known hc
  obtain ⟨rest, rfl, hrest⟩ := h.behind (htail ▸ hnext)
  have hnodup := (List.nodup_cons.mp h.chained.nodup).1
  exact {
    chained := by
      refine hrest.congr (fun _ _ => rfl) fun a b => ?_
      rw [State.Pending, State.Pending, hc]
      rfl
    first := rfl
    cleared := fun t n hn =>
      ⟨fun hmem => (h.cleared t n hn).1 (List.mem_cons_of_mem _ hmem), (h.cleared t n hn).2⟩
    input := h.input
    unique := h.unique
    begun := h.begun
    nodup := h.nodup
    knows := by
      refine ⟨rfl, ?_⟩
      rintro rfl
      exact hnodup (htail ▸ List.mem_cons_self ..)
    order := by
      rw [h.order, htail, real_dummy]
      rfl }

theorem Inv.clearDummy (h : Inv dummy s chain) {tail : κ} (hc : s.consumer = .headSame tail) :
    Inv dummy { s with
      next := Function.update s.next dummy none
      consumer := .dummyCleared tail } chain := by
  obtain ⟨htail, hreal, hout⟩ := h.known hc
  have hnext : ∀ a, a ≠ dummy → Function.update s.next dummy none a = s.next a :=
    fun a ha => Function.update_of_ne ha _ _
  exact {
    chained := by
      refine h.chained.congr (fun a ha => hnext a fun heq => hout (heq ▸ ha)) fun a b => ?_
      rw [State.Pending, State.Pending, hc]
      rfl
    first := h.first
    cleared := by
      intro t n hn
      obtain ⟨hn_out, hn_fresh, hn_next⟩ := h.cleared t n hn
      have hne : n ≠ dummy := (h.input t n (by rw [hn]; rfl)).1
      exact ⟨hn_out, hn_fresh, (hnext n hne).trans hn_next⟩
    input := h.input
    unique := h.unique
    begun := h.begun
    nodup := h.nodup
    knows := ⟨htail, hreal, hout, Function.update_self _ _ _⟩
    order := h.order }

theorem Inv.exchangeDummy (h : Inv dummy s chain) {tail : κ}
    (hc : s.consumer = .dummyCleared tail) :
    Inv dummy { s with head := dummy, consumer := .dummyExchanged tail s.head }
      (chain ++ [dummy]) := by
  obtain ⟨htail, hreal, hout, hnone⟩ := h.known hc
  obtain ⟨rest, hrest⟩ := h.cons
  exact {
    chained := by
      refine h.chained.exchange hout hnone fun a b => ?_
      simp only [State.Pending, hc, Consumer.owes, Option.some.injEq, reduceCtorEq, false_and,
        or_false, @eq_comm _ s.head]
    first := by rw [hrest]; rfl
    cleared := by
      intro t n hn
      obtain ⟨hn_out, hn_fresh, hn_next⟩ := h.cleared t n hn
      have hne : n ≠ dummy := (h.input t n (by rw [hn]; rfl)).1
      exact ⟨List.not_mem_append hn_out (mt List.mem_singleton.mp hne), hn_fresh, hn_next⟩
    input := h.input
    unique := h.unique
    begun := h.begun
    nodup := h.nodup
    knows := ⟨htail, hreal⟩
    order := by rw [real_concat_dummy, ← h.order] }

theorem Inv.storeDummy (h : Inv dummy s chain) {tail prevHead : κ}
    (hc : s.consumer = .dummyExchanged tail prevHead) :
    Inv dummy { s with
      next := Function.update s.next prevHead (some dummy)
      consumer := .dummyLinked tail } chain := by
  have hknows : tail = s.tail ∧ tail ≠ dummy := h.known hc
  have hp : s.Pending dummy prevHead dummy := .inr ⟨by rw [hc]; rfl, rfl⟩
  obtain ⟨hadj, hnone⟩ := h.chained.pending prevHead dummy hp
  exact {
    chained := by
      refine h.chained.link hp fun x y => ?_
      constructor
      · rintro (⟨u, hxy⟩ | ⟨hu, -⟩)
        · refine ⟨.inl ⟨u, hxy⟩, ?_⟩
          rintro rfl
          obtain rfl := h.pending_unique hp (.inl ⟨u, hxy⟩)
          exact (h.input u _ (by rw [hxy]; rfl)).1 rfl
        · cases hu
      · rintro ⟨hxy | ⟨hu, -⟩, hx⟩
        · exact .inl hxy
        · rw [hc] at hu
          exact absurd (Option.some.inj hu).symm hx
    first := h.first
    cleared := by
      intro t n hn
      obtain ⟨hn_out, hn_fresh, hn_next⟩ := h.cleared t n hn
      have hne : n ≠ prevHead := by
        rintro rfl
        exact hn_out hadj.mem_left
      exact ⟨hn_out, hn_fresh, (Function.update_of_ne hne _ _).trans hn_next⟩
    input := h.input
    unique := h.unique
    begun := h.begun
    nodup := h.nodup
    knows := h.link_knows (c := .dummyLinked tail) hp hknows rfl rfl
    order := h.order }

theorem Inv.follow (h : Inv dummy s chain) {c : Consumer κ} (hc : s.consumer = c)
    (howes : c.owes = none) {tail : κ} (htail : tail = s.tail) (hreal : tail ≠ dummy) :
    Inv dummy (s.follow tail) chain := by
  unfold State.follow
  cases hnext : s.next tail with
  | none => exact h.consume hc ⟨htail, hreal⟩ howes.symm
  | some next => exact h.consume hc ⟨htail, hreal, hnext⟩ howes.symm

theorem Inv.dequeue (h : Inv dummy s chain) : ∃ chain', Inv dummy (s.dequeue dummy) chain' := by
  unfold State.dequeue
  cases hc : s.consumer with
  | idle => exact ⟨chain, h.consume hc rfl rfl⟩
  | tailLoaded tail =>
    obtain rfl : tail = s.tail := h.known hc
    simp only []
    split_ifs with hdummy
    · cases hnext : s.next s.tail with
      | none => exact ⟨chain, h.consume hc trivial rfl⟩
      | some next =>
        have hlink : s.next dummy = some next := hdummy ▸ hnext
        exact ⟨chain, h.consume hc ⟨hdummy, hlink⟩ rfl⟩
    · exact ⟨chain, h.follow hc rfl rfl hdummy⟩
  | atDummy next => exact ⟨_, h.passDummy hc⟩
  | tailMoved tail =>
    obtain ⟨htail, hreal⟩ := h.known hc
    exact ⟨chain, h.follow hc rfl htail hreal⟩
  | found tail next => exact ⟨_, h.take hc⟩
  | missing tail =>
    obtain ⟨htail, hreal⟩ := h.known hc
    simp only []
    split_ifs with hhead
    · -- The tail is the last node, so that it is the only one and the dummy is out of the queue.
      have hout : dummy ∉ chain := by
        obtain ⟨rest, rfl⟩ := h.cons
        have hlast : s.head = s.tail := hhead.symm.trans htail
        have hchained := h.chained
        rw [hlast] at hchained
        rw [hchained.alone, List.mem_singleton, ← htail]
        exact hreal.symm
      exact ⟨chain, h.consume hc ⟨htail, hreal, hout⟩ rfl⟩
    · exact ⟨chain, h.consume hc trivial rfl⟩
  | headSame tail => exact ⟨_, h.clearDummy hc⟩
  | dummyCleared tail => exact ⟨_, h.exchangeDummy hc⟩
  | dummyExchanged tail prevHead => exact ⟨_, h.storeDummy hc⟩
  | dummyLinked tail =>
    obtain ⟨htail, hreal⟩ := h.known hc
    simp only []
    cases hnext : s.next tail with
    | none => exact ⟨chain, h.consume hc trivial rfl⟩
    | some next => exact ⟨chain, h.consume hc ⟨htail, hreal, hnext⟩ rfl⟩

/-! ## The producers -/

variable [DecidableEq τ]

theorem Inv.enqueue (h : Inv dummy s chain) {thread : τ} {input : κ}
    (hidle : s.producers thread = .idle) (hreal : input ≠ dummy) (hnew : input ∉ s.begun) :
    Inv dummy { s with
      next := Function.update s.next input none
      producers := Function.update s.producers thread (.cleared input)
      begun := input :: s.begun } chain := by
  -- the node is not in the queue when its link is cleared
  have hout : input ∉ chain := by
    intro hmem
    rcases h.mem_chain hmem with heq | hmem
    · exact hreal heq
    · exact hnew (h.begun input hmem).2
  have hnext : ∀ a, a ≠ input → Function.update s.next input none a = s.next a :=
    fun a ha => Function.update_of_ne ha _ _
  exact {
    chained := by
      refine h.chained.congr (fun a ha => hnext a fun heq => hout (heq ▸ ha)) fun a b => ?_
      refine or_congr_left ?_
      rw [exists_exchanged_update, exists_exchanged thread, hidle]
      simp only [reduceCtorEq]
    first := h.first
    cleared := by
      refine forall_cleared_update.mpr ⟨?_, fun t _ n hn => ?_⟩
      · rintro n ⟨⟩
        exact ⟨hout, fun hmem => hnew (h.begun _ hmem).2, Function.update_self _ _ _⟩
      · obtain ⟨hn_out, hn_fresh, hn_next⟩ := h.cleared t n hn
        refine ⟨hn_out, hn_fresh, (hnext n ?_).trans hn_next⟩
        rintro rfl
        exact hnew (h.input t n (by rw [hn]; rfl)).2
    input := by
      refine forall_input_update.mpr ⟨fun n hn => ?_, fun t _ n hn => ?_⟩
      · obtain rfl := Option.some.inj hn
        exact ⟨hreal, List.mem_cons_self ..⟩
      · exact ⟨(h.input t n hn).1, List.mem_cons_of_mem _ (h.input t n hn).2⟩
    unique := by
      refine h.unique.update fun n hn t _ ht => ?_
      obtain rfl := Option.some.inj hn
      exact hnew (h.input t _ ht).2
    begun := fun a ha => ⟨(h.begun a ha).1, List.mem_cons_of_mem _ (h.begun a ha).2⟩
    nodup := h.nodup
    knows := by
      refine h.knows.mono rfl (fun a x hx ha => ?_) fun hdummy => ⟨hdummy, fun hnone => ?_⟩
      · have hmem : s.tail ∈ chain := List.mem_of_mem_head? h.first
        refine (hnext a fun heq => hout ?_).trans hx
        rcases ha with ha | ⟨ha, hd⟩
        · rwa [← heq, ha]
        · rwa [← heq, ha, ← hd]
      · exact (hnext dummy hreal.symm).trans hnone
    order := h.order }

theorem Inv.exchange (h : Inv dummy s chain) {thread : τ} {input : κ}
    (hcleared : s.producers thread = .cleared input) :
    Inv dummy { s with
      head := input
      producers := Function.update s.producers thread (.exchanged s.head input)
      enqueued := s.enqueued ++ [input] } (chain ++ [input]) := by
  obtain ⟨hout, hfresh, hnone⟩ := h.cleared thread input hcleared
  obtain ⟨hreal, hbegun⟩ := h.input thread input (by rw [hcleared]; rfl)
  have hother : ∀ t, t ≠ thread → (s.producers t).input ≠ some input :=
    h.unique.other (by rw [hcleared]; rfl)
  obtain ⟨rest, hrest⟩ := h.cons
  exact {
    chained := by
      refine h.chained.exchange hout hnone fun a b => ?_
      rw [State.Pending, State.Pending, exists_exchanged_update, exists_exchanged thread, hcleared]
      simp only [Producer.exchanged.injEq, reduceCtorEq, false_or, @eq_comm _ s.head,
        @eq_comm _ input]
      exact or_assoc.trans or_comm
    first := by rw [hrest]; rfl
    cleared := by
      refine forall_cleared_update.mpr ⟨?_, fun t ht n hn => ?_⟩
      · rintro n ⟨⟩
      · obtain ⟨hn_out, hn_fresh, hn_next⟩ := h.cleared t n hn
        have hne : n ≠ input := by
          rintro rfl
          exact hother t ht (by rw [hn]; rfl)
        have hlast : n ∉ [input] := mt List.mem_singleton.mp hne
        exact ⟨List.not_mem_append hn_out hlast, List.not_mem_append hn_fresh hlast, hn_next⟩
    input := by
      refine forall_input_update.mpr ⟨fun n hn => ?_, fun t _ n hn => h.input t n hn⟩
      obtain rfl := Option.some.inj hn
      exact ⟨hreal, hbegun⟩
    unique := by
      refine h.unique.update fun n hn t ht => ?_
      obtain rfl := Option.some.inj hn
      exact hother t ht
    begun := List.forall_mem_append.mpr ⟨h.begun, List.forall_mem_singleton.mpr ⟨hreal, hbegun⟩⟩
    nodup := by
      rw [← List.concat_eq_append]
      exact h.nodup.concat hfresh
    knows := by
      have hlast : dummy ∉ [input] := mt List.mem_singleton.mp hreal.symm
      exact h.knows.mono rfl (fun _ _ hx _ => hx)
        fun hdummy => ⟨List.not_mem_append hdummy hlast, id⟩
    order := by
      rw [real_concat hreal, ← List.append_assoc, ← h.order] }

theorem Inv.store (h : Inv dummy s chain) {thread : τ} {prevHead input : κ}
    (hex : s.producers thread = .exchanged prevHead input) :
    Inv dummy { s with
      next := Function.update s.next prevHead (some input)
      producers := Function.update s.producers thread .idle } chain := by
  have hp : s.Pending dummy prevHead input := .inl ⟨thread, hex⟩
  obtain ⟨hadj, hnone⟩ := h.chained.pending prevHead input hp
  have hreal : input ≠ dummy := (h.input thread input (by rw [hex]; rfl)).1
  exact {
    chained := by
      refine h.chained.link hp fun x y => ?_
      rw [State.Pending, exists_exchanged_update]
      constructor
      · rintro ((hidle | ⟨u, hu, hxy⟩) | hdummy)
        · cases hidle
        · refine ⟨.inl ⟨u, hxy⟩, ?_⟩
          rintro rfl
          obtain rfl := h.pending_unique hp (.inl ⟨u, hxy⟩)
          exact hu (h.unique u thread _ (by rw [hxy]; rfl) (by rw [hex]; rfl))
        · -- The consumer would owe the dummy to the link that the producer has yet to store.
          refine ⟨.inr hdummy, ?_⟩
          rintro rfl
          exact hreal ((h.pending_unique hp (.inr hdummy)).trans hdummy.2)
      · rintro ⟨⟨u, hxy⟩ | hdummy, hx⟩
        · refine .inl (.inr ⟨u, ?_, hxy⟩)
          rintro rfl
          exact hx (Producer.exchanged.inj (hxy.symm.trans hex)).1
        · exact .inr hdummy
    first := h.first
    cleared := by
      refine forall_cleared_update.mpr ⟨?_, fun t _ n hn => ?_⟩
      · rintro n ⟨⟩
      · obtain ⟨hn_out, hn_fresh, hn_next⟩ := h.cleared t n hn
        have hne : n ≠ prevHead := by
          rintro rfl
          exact hn_out hadj.mem_left
        exact ⟨hn_out, hn_fresh, (Function.update_of_ne hne _ _).trans hn_next⟩
    input := by
      refine forall_input_update.mpr ⟨?_, fun t _ n hn => h.input t n hn⟩
      rintro n ⟨⟩
    unique := by
      refine h.unique.update fun n hn => ?_
      cases hn
    begun := h.begun
    nodup := h.nodup
    knows := h.link_knows hp h.knows rfl rfl
    order := h.order }

theorem Inv.step (h : Inv dummy s chain) {e : Event τ κ} {t : State τ κ}
    (ht : s.step dummy e = some t) : ∃ chain', Inv dummy t chain' := by
  cases e with
  | enqueue thread input =>
    simp only [State.step] at ht
    split at ht
    · rename_i hidle
      split_ifs at ht with hused
      obtain ⟨hreal, hnew⟩ := not_or.mp hused
      exact Option.some.inj ht ▸ ⟨chain, h.enqueue hidle hreal hnew⟩
    · cases ht
  | exchange thread =>
    simp only [State.step] at ht
    split at ht
    · rename_i input hcleared
      exact Option.some.inj ht ▸ ⟨_, h.exchange hcleared⟩
    · cases ht
  | store thread =>
    simp only [State.step] at ht
    split at ht
    · rename_i prevHead input hex
      exact Option.some.inj ht ▸ ⟨chain, h.store hex⟩
    · cases ht
  | dequeue => exact Option.some.inj ht ▸ h.dequeue

omit [DecidableEq τ] in
theorem inv_start (dummy : κ) (links : κ → Option κ) :
    Inv dummy (State.start dummy links : State τ κ) [dummy] where
  chained := {
    nodup := List.nodup_singleton dummy
    last_eq := rfl
    next_last := Function.update_self _ _ _
    links := fun a b hab => absurd hab Adjacent.not_singleton
    pending := by
      rintro a b (⟨thread, hp⟩ | ⟨hp, -⟩)
      · cases hp
      · cases hp }
  first := rfl
  cleared := fun thread input hp => by cases hp
  input := fun thread input hp => by cases hp
  unique := fun t t' input hp => by cases hp
  begun := fun a ha => absurd ha List.not_mem_nil
  nodup := List.nodup_nil
  knows := trivial
  order := by
    have hnone : real dummy [dummy] = [] := real_dummy
    exact hnone.symm

/-! ## What the consumer gets -/

omit [DecidableEq τ] in
theorem Inv.rest_of_quiet {rest : List κ} (h : Inv dummy s (s.tail :: rest))
    (hquiet : ∀ a b, ¬ s.Pending dummy a b) : s.next s.tail = rest.head? := by
  cases rest with
  | nil =>
    obtain hlast : s.tail = s.head := Option.some.inj h.chained.last_eq
    rw [hlast]
    exact h.chained.next_last
  | cons next rest =>
    have hadj : Adjacent (s.tail :: next :: rest) s.tail next :=
      Adjacent.cons_iff.mpr (.inl ⟨rfl, rfl⟩)
    exact (h.chained.links _ _ hadj).resolve_right fun hp => hquiet _ _ hp.2

omit [DecidableEq τ] in
theorem Inv.follow_alone (h : Inv dummy s chain)
    (hquiet : ∀ a b, ¬ s.Pending dummy a b) :
    ∃ k, ((State.dequeue dummy)^[k] (s.follow s.tail)).returned = s.returned ++ [s.tail] := by
  obtain ⟨rest, rfl⟩ := h.cons
  have hnext := h.rest_of_quiet hquiet
  cases rest with
  | cons next rest =>
    refine ⟨1, ?_⟩
    simp only [Function.iterate_one, State.follow, hnext, List.head?_cons, State.dequeue]
  | nil =>
    obtain hlast : s.tail = s.head := Option.some.inj h.chained.last_eq
    have hmissing : (s.follow s.tail).dequeue dummy = { s with consumer := .headSame s.tail } := by
      simp only [State.follow, hnext, List.head?_nil, State.dequeue, if_pos hlast]
    refine ⟨6, ?_⟩
    rw [Function.iterate_succ_apply, hmissing]
    simp only [Function.iterate_succ, Function.iterate_zero, Function.comp_apply, id_eq,
      State.dequeue, ← hlast, Function.update_self]

omit [DecidableEq τ] in
theorem Inv.dequeue_alone (h : Inv dummy s chain) (hidle : s.consumer = .idle)
    (hquiet : ∀ a b, ¬ s.Pending dummy a b) (hmore : s.returned ≠ s.enqueued) :
    ∃ k a, ((State.dequeue dummy)^[k] s).returned = s.returned ++ [a] := by
  obtain ⟨rest, rfl⟩ := h.cons
  have hnext := h.rest_of_quiet hquiet
  by_cases hdummy : s.tail = dummy
  · cases rest with
    | nil =>
      refine absurd ?_ hmore
      rw [h.order, hdummy, real_dummy]
      exact (List.append_nil _).symm
    | cons next rest =>
      rw [List.head?_cons] at hnext
      have hat : (State.dequeue dummy)^[2] s = { s with consumer := .atDummy next } := by
        simp only [Function.iterate_succ, Function.iterate_zero, Function.comp_apply, id_eq,
          State.dequeue, hidle, if_pos hdummy, hnext]
      have hinv : Inv dummy { s with consumer := .atDummy next } (s.tail :: next :: rest) :=
        h.consume hidle ⟨hdummy, hdummy ▸ hnext⟩ rfl
      have hpassed := hinv.passDummy rfl
      obtain ⟨k, hk⟩ := hpassed.follow_alone fun a b hp => hquiet a b (by
        rw [State.Pending, hidle]
        exact hp)
      refine ⟨k + 2 + 2, next, ?_⟩
      rw [Function.iterate_add_apply, hat, Function.iterate_add_apply]
      exact hk
  · have hinv : Inv dummy { s with consumer := .tailLoaded s.tail } (s.tail :: rest) :=
      h.consume hidle rfl rfl
    have hload : (State.dequeue dummy)^[2] s =
        State.follow { s with consumer := .tailLoaded s.tail } s.tail := by
      simp only [Function.iterate_succ, Function.iterate_zero, Function.comp_apply, id_eq,
        State.dequeue, hidle, if_neg hdummy]
    obtain ⟨k, hk⟩ := hinv.follow_alone fun a b hp => hquiet a b (by
      rw [State.Pending, hidle]
      exact hp)
    refine ⟨k + 2, s.tail, ?_⟩
    rw [Function.iterate_add_apply, hload]
    exact hk

/-- What holds between any two steps: the nodes come back in the order of the exchanges, none
of them twice and the dummy never; those still to come are the linked nodes from the tail on, among
which the dummy is once at most; and no store into a node that is or has been returned is
pending. -/
structure Safe (dummy : κ) (s : State τ κ) : Prop where
  inOrder : s.returned <+: s.enqueued
  nodup : s.enqueued.Nodup
  real : dummy ∉ s.enqueued
  kept : ∃ rest, Chained s.next (s.Pending dummy) s.head (s.tail :: rest) ∧
    s.enqueued = s.returned ++ MpscQueueIntrusive.real dummy (s.tail :: rest)
  alone : s.consumer = .idle → (∀ a b, ¬ s.Pending dummy a b) → s.returned ≠ s.enqueued →
    ∃ k a, ((State.dequeue dummy)^[k] s).returned = s.returned ++ [a]
  found : ∀ tail next, s.consumer = .found tail next → ∀ b, ¬ s.Pending dummy tail b
  returned : ∀ a ∈ s.returned, ∀ b, ¬ s.Pending dummy a b

omit [DecidableEq τ] in
theorem Inv.safe (h : Inv dummy s chain) : Safe dummy s where
  inOrder := ⟨_, h.order.symm⟩
  nodup := h.nodup
  real := fun hmem => (h.begun dummy hmem).1 rfl
  kept := by
    obtain ⟨rest, rfl⟩ := h.cons
    exact ⟨rest, h.chained, h.order⟩
  alone := h.dequeue_alone
  found tail next hc b := by
    exact h.chained.not_pending (h.known hc).2.2 b
  returned a ha b hp := by
    have hmem : a ∈ chain := (h.chained.pending a b hp).1.mem_left
    have hreal : a ≠ dummy := (h.begun a (h.order ▸ List.mem_append_left _ ha)).1
    have hdisjoint := List.disjoint_of_nodup_append (h.order ▸ h.nodup)
    exact hdisjoint ha (mem_real.mpr ⟨hmem, hreal⟩)

/-- Every interleaving of the steps of any number of producers and the consumer is safe. -/
theorem fifo_queue (dummy : κ) (links : κ → Option κ) (s : State τ κ)
    (h : (runs τ κ dummy links).Reachable s) : Safe dummy s := by
  have hstep : ∀ (s : State τ κ) e t, (∃ chain, Inv dummy s chain) →
      (runs τ κ dummy links).step s e = some t → ∃ chain, Inv dummy t chain := by
    rintro s e t ⟨chain, hs⟩ ht
    exact hs.step ht
  obtain ⟨chain, hinv⟩ := h.invariant ⟨[dummy], inv_start dummy links⟩ hstep
  exact hinv.safe

end Invariant

/-- The second producer links its node before the first one does; the consumer takes both nodes,
the last one through the dummy, and a third node waits behind the dummy for its link. -/
def twoReturned : List (Event Bool Nat) :=
  [.enqueue false 7, .exchange false, .enqueue true 8, .exchange true, .store true, .store false] ++
    List.replicate 13 .dequeue ++ [.enqueue false 9, .exchange false]

theorem fifo_queue_twoReturned :
    ∃ s, (runs Bool Nat 0 some).runFrom (State.start 0 some) twoReturned = some s ∧
      s.returned = [7, 8] ∧ s.enqueued = [7, 8, 9] ∧ s.Pending 0 0 9 ∧ Safe 0 s := by
  have hreach : (runs Bool Nat 0 some).Reachable _ := ⟨twoReturned, rfl⟩
  exact ⟨_, rfl, rfl, rfl, .inl ⟨false, rfl⟩, fifo_queue 0 some _ hreach⟩

end MpscQueueIntrusive
end Warhead
