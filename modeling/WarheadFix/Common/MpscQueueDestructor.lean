import WarheadFix.Common.MpscQueueNonIntrusive

/-! The destructor of the queue that allocates its nodes. It takes out what it can reach and
deletes the node at the head. Where all producers have left `Enqueue`, that is every node
there is; and only there. -/

namespace Warhead
open Lib

namespace MpscQueueNonIntrusive
variable {τ α ν : Type}

namespace State
variable [DecidableEq ν]

def call (s : State τ α ν) : State τ α ν × Bool :=
  let t := dequeue^[2] s
  match t.consumer with
  | .idle => (t, false)
  | _ => (dequeue^[3] t, true)

/-- The destructor; the fuel bounds the rounds of its loop. The elements that the calls return
are deleted one by one. -/
def destroy : Nat → State τ α ν → Option (State τ α ν)
  | 0, _ => none
  | fuel + 1, s =>
    match s.call with
    | (t, true) => destroy fuel t
    | (t, false) =>
      some (t.access t.head fun _ => { t with heap := Function.update t.heap t.head none })

end State

def Owned (s : State τ α ν) (chain : List ν) : Prop :=
  ∀ a, (s.heap a).isSome → a ∈ chain ∨
    (∃ thread input, s.producers thread = .created a input) ∨
    ∃ result, s.consumer = .tailStored a result

section Invariant
variable {s t : State τ α ν} {chain : List ν}

theorem Owned.consume (h : Owned s chain) {c : Consumer α ν}
    (hc : ∀ tail result, s.consumer ≠ .tailStored tail result) :
    Owned { s with consumer := c } chain := by
  intro a ha
  rcases h a ha with hmem | hcreated | ⟨result, hstored⟩
  · exact .inl hmem
  · exact .inr (.inl hcreated)
  · exact absurd hstored (hc a result)

theorem Owned.storeTail (h : Owned s chain) (hi : Inv s chain) {tail next : ν} {result : α}
    (hc : s.consumer = .dataRead tail next result) :
    Owned { s with tail := next, consumer := .tailStored tail result } chain.tail := by
  obtain ⟨rfl, hlink, -⟩ := hi.known hc
  obtain ⟨rest, rfl, -⟩ := hi.behind hlink
  intro a ha
  rcases h a ha with hmem | hcreated | ⟨result', hstored⟩
  · rcases List.mem_cons.mp hmem with rfl | hmem
    · exact .inr (.inr ⟨result, rfl⟩)
    · exact .inl hmem
  · exact .inr (.inl hcreated)
  · exact absurd (hc.symm.trans hstored) nofun

variable [DecidableEq ν]

theorem Owned.delete (h : Owned s chain) {tail : ν} {result : α}
    (hc : s.consumer = .tailStored tail result) : Owned { s with
      heap := Function.update s.heap tail none
      consumer := .idle
      returned := s.returned ++ [result] } chain := by
  intro a ha
  have hne : a ≠ tail := by
    rintro rfl
    have hnone : Function.update s.heap a none a = none := Function.update_self ..
    exact absurd ((congrArg Option.isSome hnone).symm.trans ha) Bool.false_ne_true
  have hlive : (s.heap a).isSome :=
    (congrArg Option.isSome (Function.update_of_ne hne _ _)).symm.trans ha
  rcases h a hlive with hmem | hcreated | ⟨result', hstored⟩
  · exact .inl hmem
  · exact .inr (.inl hcreated)
  · exact absurd (Consumer.tailStored.inj (hstored.symm.trans hc)).1 hne

theorem Owned.dequeue (h : Owned s chain) (hi : Inv s chain) :
    ∃ chain', Inv s.dequeue chain' ∧ Owned s.dequeue chain' := by
  unfold State.dequeue
  cases hc : s.consumer with
  | idle => exact ⟨chain, hi.consume hc rfl rfl, h.consume (by simp [hc])⟩
  | tailLoaded tail =>
    obtain rfl : tail = s.tail := hi.known hc
    obtain ⟨node, hnode, haccess⟩ :=
      State.access_of_isSome (hi.live _ (List.mem_of_mem_head? hi.first))
    simp only [haccess]
    cases hnext : node.next with
    | none => exact ⟨chain, hi.consume hc trivial rfl, h.consume (by simp [hc])⟩
    | some next =>
      have hlink : s.link s.tail = some next := by rw [State.link, hnode, Option.bind_some, hnext]
      exact ⟨chain, hi.consume hc ⟨rfl, hlink⟩ rfl, h.consume (by simp [hc])⟩
  | nextLoaded tail next =>
    obtain ⟨rfl, hlink⟩ := hi.known hc
    obtain ⟨rest, rfl, -⟩ := hi.behind hlink
    have hmem : next ∈ (s.tail :: next :: rest).tail := List.mem_cons_self ..
    obtain ⟨node, hnode, haccess⟩ := State.access_of_isSome
      (hi.live next (List.mem_of_mem_tail hmem))
    obtain ⟨result, hresult⟩ := Option.isSome_iff_exists.mp (hi.data_isSome hmem)
    have hdata : node.data = some result := by
      rwa [State.data, hnode, Option.bind_some] at hresult
    simp only [haccess, hdata]
    exact ⟨_, hi.consume hc ⟨rfl, hlink, hresult⟩ rfl, h.consume (by simp [hc])⟩
  | dataRead tail next result => exact ⟨chain.tail, hi.storeTail hc, h.storeTail hi hc⟩
  | tailStored tail result =>
    obtain ⟨node, hnode, hinv⟩ := hi.delete hc
    simp only [State.access, hnode]
    exact ⟨chain, hinv, h.delete hc⟩

/-! ## One call -/

def State.took (s : State τ α ν) (next : ν) (x : α) : State τ α ν :=
  { s with
    heap := Function.update s.heap s.tail none
    tail := next
    consumer := .idle
    returned := s.returned ++ [x] }

theorem Inv.call_some (hi : Inv s chain) (h : Owned s chain) (hidle : s.consumer = .idle) {next : ν}
    (hlink : s.link s.tail = some next) : ∃ x, s.call = (s.took next x, true) ∧
      Inv (s.took next x) chain.tail ∧ Owned (s.took next x) chain.tail := by
  obtain ⟨rest, rfl, -⟩ := hi.behind hlink
  have hmem : next ∈ (s.tail :: next :: rest).tail := List.mem_cons_self ..
  obtain ⟨result, hresult⟩ := Option.isSome_iff_exists.mp (hi.data_isSome hmem)
  obtain ⟨first, hfirst, hnext⟩ := Option.bind_eq_some_iff.mp hlink
  obtain ⟨second, hsecond, hdata⟩ := Option.bind_eq_some_iff.mp hresult
  have hread : Inv { s with consumer := .dataRead s.tail next result } (s.tail :: next :: rest) :=
    hi.consume hidle ⟨rfl, hlink, hresult⟩ rfl
  have hread' : Owned { s with consumer := .dataRead s.tail next result }
      (s.tail :: next :: rest) := h.consume (by simp [hidle])
  have hstored := hread.storeTail rfl
  have hstored' := hread'.storeTail hread rfl
  obtain ⟨-, -, hdeleted⟩ := hstored.delete rfl
  refine ⟨result, ?_, hdeleted, hstored'.delete rfl⟩
  simp only [State.call, State.took, Function.iterate_succ, Function.iterate_zero,
    Function.comp_apply, id_eq, State.dequeue, State.access, hidle, hfirst, hnext, hsecond, hdata]

theorem Inv.call_none (hi : Inv s chain) (hidle : s.consumer = .idle)
    (hlink : s.link s.tail = none) : s.call = (s, false) := by
  obtain ⟨first, hfirst⟩ := Option.isSome_iff_exists.mp
    (hi.live _ (List.mem_of_mem_head? hi.first))
  have hnext : first.next = none := by rwa [State.link, hfirst, Option.bind_some] at hlink
  simp only [State.call, Function.iterate_succ, Function.iterate_zero, Function.comp_apply, id_eq,
    State.dequeue, State.access, hidle, hfirst, hnext]
  rw [← hidle]

variable [DecidableEq τ]

theorem Owned.step (h : Owned s chain) (hi : Inv s chain) {e : Event τ α ν}
    (ht : s.step e = some t) : ∃ chain', Inv t chain' ∧ Owned t chain' := by
  cases e with
  | create thread input node =>
    simp only [State.step] at ht
    split at ht
    · rename_i hidle hfree
      obtain rfl := Option.some.inj ht
      refine ⟨chain, hi.create hidle hfree, fun a ha => ?_⟩
      by_cases han : a = node
      · exact .inr (.inl ⟨thread, input, by rw [han]; exact Function.update_self ..⟩)
      · have hlive : (s.heap a).isSome :=
          (congrArg Option.isSome (Function.update_of_ne han _ _)).symm.trans ha
        refine (h a hlive).imp_right (Or.imp_left ?_)
        rintro ⟨thread', input', hc⟩
        refine ⟨thread', input', ?_⟩
        have hne : thread' ≠ thread := by
          rintro rfl
          rw [hidle] at hc
          cases hc
        exact (Function.update_of_ne hne _ _).trans hc
    · cases ht
  | exchange thread =>
    simp only [State.step] at ht
    split at ht
    · rename_i node input hcreated
      obtain rfl := Option.some.inj ht
      refine ⟨_, hi.exchange hcreated, fun a ha => ?_⟩
      rcases h a ha with hmem | ⟨thread', input', hc⟩ | hstored
      · exact .inl (List.mem_append_left _ hmem)
      · by_cases hthread : thread' = thread
        · subst hthread
          obtain ⟨rfl, -⟩ := Producer.created.inj (hc.symm.trans hcreated)
          exact .inl (List.mem_append_right _ (List.mem_singleton_self _))
        · exact .inr (.inl ⟨thread', input', (Function.update_of_ne hthread _ _).trans hc⟩)
      · exact .inr (.inr hstored)
    · cases ht
  | store thread =>
    simp only [State.step] at ht
    split at ht
    · rename_i prevHead node hex
      obtain ⟨prev, hprev, hinv⟩ := hi.store hex
      rw [State.access, hprev] at ht
      obtain rfl := Option.some.inj ht
      refine ⟨chain, hinv, fun a ha => ?_⟩
      have hsome : ((s.stored thread prevHead node prev).heap a).isSome = (s.heap a).isSome :=
        State.isSome_heap_stored hprev a
      have hlive : (s.heap a).isSome := by rwa [← hsome]
      refine (h a hlive).imp_right (Or.imp_left ?_)
      rintro ⟨thread', input', hc⟩
      refine ⟨thread', input', ?_⟩
      have hne : thread' ≠ thread := by
        rintro rfl
        rw [hex] at hc
        cases hc
      exact (Function.update_of_ne hne _ _).trans hc
    · cases ht
  | dequeue => exact Option.some.inj ht ▸ h.dequeue hi

/-! ## The destructor -/

/-- What the loop comes to: the consumer is idle before a missing link, the producers and the head
are where they were, and what has been taken out was enqueued. -/
structure Drained (s t : State τ α ν) (chain : List ν) : Prop where
  inv : Inv t chain
  owned : Owned t chain
  idle : t.consumer = .idle
  stuck : t.link t.tail = none
  producers : t.producers = s.producers
  head : t.head = s.head
  enqueued : t.enqueued = s.enqueued
  returned : s.returned <+: t.returned

omit [DecidableEq τ] in
theorem exists_drained (hi : Inv s chain) (h : Owned s chain) (hidle : s.consumer = .idle) :
    ∃ t chain', Drained s t chain' ∧ ∀ fuel, chain.length ≤ fuel → s.destroy fuel =
      some (t.access t.head fun _ => { t with heap := Function.update t.heap t.head none }) := by
  induction chain generalizing s with
  | nil => exact absurd hi.first nofun
  | cons a rest ih =>
    obtain ⟨rest', heq⟩ := hi.cons
    obtain ⟨rfl, rfl⟩ := List.cons.inj heq
    cases hlink : s.link s.tail with
    | none =>
      refine ⟨s, _, ⟨hi, h, hidle, hlink, rfl, rfl, rfl, List.prefix_refl _⟩, fun fuel hfuel => ?_⟩
      cases fuel with
      | zero => exact absurd hfuel (Nat.not_succ_le_zero _)
      | succ fuel => simp only [State.destroy, hi.call_none hidle hlink]
    | some next =>
      obtain ⟨x, hcall, hi', h'⟩ := hi.call_some h hidle hlink
      obtain ⟨t, chain', hdrained, hdestroy⟩ := ih hi' h' rfl
      refine ⟨t, chain', ⟨hdrained.inv, hdrained.owned, hdrained.idle, hdrained.stuck,
        hdrained.producers, hdrained.head, hdrained.enqueued,
        (List.prefix_append _ _).trans hdrained.returned⟩, fun fuel hfuel => ?_⟩
      cases fuel with
      | zero => exact absurd hfuel (Nat.not_succ_le_zero _)
      | succ fuel =>
        simp only [State.destroy, hcall]
        exact hdestroy fuel (Nat.le_of_succ_le_succ hfuel)

omit [DecidableEq τ] [DecidableEq ν] in
theorem Drained.alone (h : Drained s t chain) (hquiet : ∀ thread, s.producers thread = .idle) :
    chain = [t.head] := by
  obtain ⟨rest, rfl⟩ := h.inv.cons
  cases rest with
  | nil => exact congrArg (fun a => [a]) (Option.some.inj h.inv.chained.last_eq)
  | cons b rest =>
    rcases h.inv.chained.links t.tail b (Adjacent.cons_iff.mpr (.inl ⟨rfl, rfl⟩)) with
      hlink | ⟨-, thread, hp⟩
    · exact absurd (h.stuck.symm.trans hlink) nofun
    · rw [h.producers, hquiet thread] at hp
      cases hp

omit [DecidableEq τ] [DecidableEq ν] in
theorem Drained.other (h : Drained s t chain) {thread : τ}
    (hbusy : s.producers thread ≠ .idle) : ∃ a, a ≠ t.head ∧ (t.heap a).isSome := by
  rw [← h.producers] at hbusy
  cases hp : t.producers thread with
  | idle => exact absurd hp hbusy
  | created node input =>
    obtain ⟨hout, hnode⟩ := h.inv.created thread node input hp
    refine ⟨node, ?_, by rw [hnode]; rfl⟩
    rintro rfl
    exact hout h.inv.chained.last_mem
  | exchanged prevHead node =>
    obtain ⟨hadj, -⟩ := h.inv.chained.pending prevHead node ⟨thread, hp⟩
    refine ⟨prevHead, ?_, h.inv.live _ hadj.mem_left⟩
    rintro rfl
    exact Adjacent.not_last h.inv.chained.nodup h.inv.chained.last_eq hadj

/-- Whatever the threads have done, the destructor ends without touching a deleted node, and takes
the elements out in the order in which they came in; and it deletes every node if and only if
no producer is in `Enqueue`, and then it has taken out every element. -/
theorem destroy_frees_iff (stub : ν) (h : (runs τ α ν stub).Reachable s)
    (hidle : s.consumer = .idle) :
    ∃ t, (∃ n, ∀ fuel, n ≤ fuel → s.destroy fuel = some t) ∧ t.faulted = false ∧
      s.returned <+: t.returned ∧ t.returned <+: s.enqueued ∧
      ((∀ a, t.heap a = none) ↔ ∀ thread, s.producers thread = .idle) ∧
      ((∀ thread, s.producers thread = .idle) → t.returned = s.enqueued) := by
  have hstart : Owned (State.start stub : State τ α ν) [stub] := by
    intro a ha
    by_cases hstub : a = stub
    · exact .inl (List.mem_singleton.mpr hstub)
    · have hnone : (State.start stub : State τ α ν).heap a = none := by
        simp only [State.start, Function.update_of_ne hstub]
      exact absurd ((congrArg Option.isSome hnone).symm.trans ha) Bool.false_ne_true
  obtain ⟨chain, hi, ho⟩ := h.invariant (I := fun s => ∃ chain, Inv s chain ∧ Owned s chain)
    ⟨[stub], inv_start stub, hstart⟩ fun _ _ _ h ht => h.elim fun _ h => h.2.step h.1 ht
  obtain ⟨t, chain', hdrained, hdestroy⟩ := exists_drained hi ho hidle
  obtain ⟨node, hnode, haccess⟩ := State.access_of_isSome
    (hdrained.inv.live _ hdrained.inv.chained.last_mem)
  rw [haccess] at hdestroy
  refine ⟨_, ⟨chain.length, hdestroy⟩, hdrained.inv.sound, hdrained.returned,
    hdrained.enqueued ▸ hdrained.inv.safe.inOrder, ⟨fun hfreed thread => ?_, fun hquiet a => ?_⟩,
    fun hquiet => ?_⟩
  · by_contra hbusy
    obtain ⟨a, hne, hlive⟩ := hdrained.other hbusy
    have hnone : Function.update t.heap t.head none a = none := hfreed a
    rw [Function.update_of_ne hne] at hnone
    rw [hnone] at hlive
    cases hlive
  · by_cases ha : a = t.head
    · subst ha
      exact Function.update_self ..
    · refine (Function.update_of_ne ha _ _).trans (Option.not_isSome_iff_eq_none.mp fun hlive => ?_)
      rcases hdrained.owned a hlive with hmem | ⟨thread, input, hc⟩ | ⟨result, hc⟩
      · rw [hdrained.alone hquiet] at hmem
        exact ha (List.mem_singleton.mp hmem)
      · rw [hdrained.producers, hquiet thread] at hc
        cases hc
      · rw [hdrained.idle] at hc
        cases hc
  · have horder := hdrained.inv.order
    rw [hdrained.alone hquiet, hdrained.idle, hdrained.enqueued] at horder
    simp only [Consumer.taken, List.append_nil, List.tail_cons, List.map_nil] at horder
    exact (List.map_injective_iff.mpr (Option.some_injective α) horder).symm

end Invariant

def twoEnqueued : List (Event Unit Nat Nat) :=
  [.create () 7 1, .exchange (), .store (), .create () 8 2, .exchange (), .store (), .dequeue,
    .dequeue, .dequeue, .dequeue, .dequeue]

theorem destroy_frees_iff_two : ∃ s t, (runs Unit Nat Nat 0).runFrom (State.start 0) twoEnqueued =
      some s ∧ (∃ fuel, s.destroy fuel = some t) ∧ (∀ a, t.heap a = none) ∧ t.returned = [7, 8] := by
  have hreach : (runs Unit Nat Nat 0).Reachable _ := ⟨twoEnqueued, rfl⟩
  obtain ⟨t, ⟨n, hn⟩, -, -, -, hfreed, hall⟩ := destroy_frees_iff 0 hreach rfl
  exact ⟨_, t, rfl, ⟨n, hn n le_rfl⟩, hfreed.mpr fun _ => rfl, hall fun _ => rfl⟩

end MpscQueueNonIntrusive
end Warhead
