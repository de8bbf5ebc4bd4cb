import BmlSys.Lib.Lists
import BmlSys.Queue.Steps

/-!
# The bounded queue is linearizable

`Inv` holds at the start and every step of the threads and of a client that has the queue for itself keeps it, so that every run is
a run of the abstract queue with the same calls and answers. In every state of a run no two threads access the value of one slot.
-/

namespace BmlSys
namespace Queue
open Simulation (Run)
variable {ι α : Type} {cap k : Nat}

/-! ### Exclusive use -/

namespace Inv
variable {s : System ι α} {f : Fifo ι α} {g : Ghost ι α}

theorem start (hcap : cap < 2 ^ 64) {q : ArrayQueue α} (h : ArrayQueue.new α cap = some q) :
    Inv cap (cap.log2 + 1) (System.start ι q) Fifo.empty (Ghost.start ι α) := by
  have hshaped := ArrayQueue.shaped_new h hcap
  have hzero : stampOf cap (2 ^ (cap.log2 + 1)) 0 = 0 := by simp [stampOf]
  unfold ArrayQueue.new at h
  split at h
  · cases h
  · cases h
    refine ⟨hshaped, hzero.symm, hzero.symm, rfl, le_rfl, Nat.zero_le _, fun x slot hslot => ?_, fun _ => rfl, ?_, ?_, ?_⟩
    · change ((List.range cap).map fun i => (⟨i, none⟩ : Slot α))[x]? = some slot at hslot
      rw [List.getElem?_map] at hslot
      obtain ⟨y, hy, rfl⟩ := Option.map_eq_some_iff.1 hslot
      obtain ⟨hlt, hxy⟩ := List.getElem?_eq_some_iff.1 hy
      rw [List.getElem_range] at hxy
      rw [List.length_range] at hlt
      subst hxy
      refine ⟨Nat.mod_eq_of_lt hlt, ⟨?_, Nat.zero_le _, (Nat.zero_add cap).symm ▸ hlt⟩, fun _ => rfl, fun h => by cases h⟩
      simp [stampOf, Ghost.start, Nat.div_eq_of_lt hlt, Nat.mod_eq_of_lt hlt]
    · intro _ _ _ h
      cases h
    · intro _ h
      cases h
    · intro _ _ h
      cases h

/-- A change of the slot `x` and of the length while no call is under way. -/
theorem exclusive (h : Inv cap k s f g) (hidle : ∀ i, s.threads i = .idle) {x p : Nat} {phase : Phase ι} (slot : Slot α)
    {q' : ArrayQueue α} {g' : Ghost ι α} {items : List α} (hshaped : q'.Shaped cap k)
    (hhead : q'.head = stampOf cap (2 ^ k) g'.head) (htail : q'.tail = stampOf cap (2 ^ k) g'.elems.length)
    (hitems : items = g'.elems.drop g'.head) (hle : g'.head ≤ g'.elems.length) (hroom : g'.elems.length ≤ g'.head + cap)
    (hself : q'.buffer[x]? = some slot) (hother : ∀ y : Nat, y ≠ x → q'.buffer[y]? = s.queue.buffer[y]?)
    (hok : SlotOk cap (2 ^ k) (g'.use x p phase) x slot)
    (hslots : ∀ (y : Nat) (slot : Slot α), y ≠ x → SlotOk cap (2 ^ k) g y slot → SlotOk cap (2 ^ k) g' y slot)
    (hphase : g'.phase = g.phase) (hnone : phase.owner = none) :
    Inv cap k ⟨q', s.threads⟩ (f.change items) (g'.use x p phase) where
  shaped := hshaped
  head := hhead
  tail := htail
  items := hitems
  le := hle
  room := hroom
  slots y slot' hy := by
    by_cases hyx : y = x
    · subst hyx
      rw [hself] at hy
      cases hy
      exact hok
    · exact (hslots y slot' hyx (h.slots y slot' ((hother y hyx).symm.trans hy))).use_of_ne hyx
  threads i := by
    rw [hidle i]
    show (f.pending i).see _ = .idle
    rw [h.pending_idle hidle i]
    rfl
  seen i c seen hc := Status.mem_of_see hc
  refilling i hi := absurd hi (h.refilling_idle hidle i)
  owned y i hy := by
    by_cases hyx : y = x
    · subst hyx
      rw [Ghost.phase_use_self, hnone] at hy
      cases hy
    · rw [Ghost.phase_use_of_ne _ hyx, hphase] at hy
      exact h.owned y i hy

variable [DecidableEq ι]

theorem pushMut (h : Inv cap k s f g) (hstamps : stampOf cap (2 ^ k) (g.elems.length + 2 * cap) < 2 ^ 64)
    (hidle : ∀ i, s.threads i = .idle) {value : α} {refused : Option α} {q : ArrayQueue α}
    (hpush : s.queue.pushMut value = some (q, refused)) : ∃ f' g', Fifo.Step cap f (some (.pushMut value refused)) f' ∧
      Inv cap k ⟨q, s.threads⟩ f' g' ∧ g'.elems.length ≤ g.elems.length + 1 := by
  have hpending := h.pending_idle hidle
  have hlength := h.length_items
  have hle := h.le
  have hroom := h.room
  have hpos := h.shaped.pos
  have hfull : wrappingAdd s.queue.head s.queue.oneLap = s.queue.tail ↔ g.head + cap = g.elems.length := by
    rw [h.head, h.tail, h.shaped.add_oneLap (h.stamp_lt hstamps (by omega))]
    exact ⟨h.stamp_inj, fun heq => by rw [heq]⟩
  unfold ArrayQueue.pushMut at hpush
  split at hpush
  · rename_i hfull'
    rw [hfull] at hfull'
    cases hpush
    exact ⟨f, g, .refuseMut hpending (by omega), h, Nat.le_succ _⟩
  · rename_i hfree
    rw [hfull] at hfree
    have hlt : g.elems.length < g.head + cap := by omega
    obtain ⟨hat, hphase, slot, hslot, -⟩ := (h.slot_idle hidle h.le hlt).2 le_rfl
    have hfits := (h.slots _ _ hslot).fits
    rw [hphase, hat] at hfits
    rw [h.tail, h.step_slot hslot] at hpush
    obtain ⟨rfl, rfl⟩ := Prod.mk.inj (Option.some.inj hpush)
    have hnext := h.shaped.next_stampOf (h.stamp_lt hstamps (p := g.elems.length + 1) (by omega))
    have hlen : (g.elems ++ [value]).length = g.elems.length + 1 := by rw [List.length_append, List.length_singleton]
    have hshaped : ({ s.queue with tail := s.queue.next (stampOf cap (2 ^ k) g.elems.length) } : ArrayQueue α).Shaped cap k :=
      ⟨h.shaped.cap_eq, h.shaped.oneLap, h.shaped.length, h.shaped.pos, h.shaped.lt, h.shaped.word⟩
    refine ⟨_, (g.add value).use (g.elems.length % cap) g.elems.length .full, .pushMut hpending (by omega), ?_, hlen.le⟩
    refine h.exclusive hidle ⟨stampOf cap (2 ^ k) g.elems.length + 1, some value⟩ ((hshaped.setValue _ _).setStamp _ _) h.head
      ?_ ?_ ?_ ?_ ((hshaped.setValue _ _).getElem?_setStamp (hshaped.getElem?_setValue hslot)) (fun y hy => ?_) ?_
      (fun y slot hy hok => hok.add hy) rfl rfl
    · rw [Ghost.elems_add, hlen]
      exact hnext
    · rw [Ghost.elems_add, Ghost.head_add, h.items, List.drop_append_of_le_length h.le]
    · rw [Ghost.elems_add, Ghost.head_add, hlen]
      omega
    · rw [Ghost.elems_add, Ghost.head_add, hlen]
      omega
    · rw [(hshaped.setValue _ _).getElem?_setStamp_of_ne hy, hshaped.getElem?_setValue_of_ne hy]
    · refine .used rfl ⟨rfl, h.le, by rw [Ghost.elems_add, hlen]; exact Nat.lt_succ_self _⟩ (fun hfree => by cases hfree) fun _ => ?_
      rw [Ghost.elems_add, List.getElem?_append_right le_rfl, Nat.sub_self]
      rfl

theorem popMut (h : Inv cap k s f g) (hstamps : stampOf cap (2 ^ k) (g.elems.length + 2 * cap) < 2 ^ 64)
    (hidle : ∀ i, s.threads i = .idle) {value : Option α} {q : ArrayQueue α} (hpop : s.queue.popMut = some (q, value)) :
    ∃ f' g', Fifo.Step cap f (some (.popMut value)) f' ∧ Inv cap k ⟨q, s.threads⟩ f' g' ∧ g'.elems.length ≤ g.elems.length + 1 := by
  have hpending := h.pending_idle hidle
  have hle := h.le
  have hroom := h.room
  have hpos := h.shaped.pos
  have hempty : s.queue.tail = s.queue.head ↔ g.elems.length = g.head := by
    rw [h.head, h.tail]
    exact ⟨h.stamp_inj, fun heq => by rw [heq]⟩
  unfold ArrayQueue.popMut at hpop
  split at hpop
  · rename_i hempty'
    rw [hempty] at hempty'
    cases hpop
    refine ⟨f, g, .emptyMut hpending ?_, h, Nat.le_succ _⟩
    rw [h.items]
    exact List.drop_of_length_le hempty'.le
  · rename_i hne
    rw [hempty] at hne
    have hlt : g.head < g.elems.length := by omega
    obtain ⟨hat, hphase, slot, hslot, hvalue⟩ := (h.slot_idle hidle le_rfl (by omega)).1 hlt
    have hfits := (h.slots _ _ hslot).fits
    rw [hphase, hat] at hfits
    rw [List.getElem?_eq_getElem hlt] at hvalue
    have hadd := h.shaped.add_oneLap (h.stamp_lt hstamps (p := g.head + cap) (by omega))
    simp only [h.head, h.step_slot hslot, hvalue, Option.bind_eq_bind, Option.bind_some, hadd] at hpop
    obtain ⟨rfl, rfl⟩ := Prod.mk.inj (Option.some.inj hpop)
    have hnext := h.shaped.next_stampOf (h.stamp_lt hstamps (p := g.head + 1) (by omega))
    have hitems : f.items = g.elems[g.head] :: g.elems.drop (g.head + 1) := by rw [h.items, List.drop_eq_getElem_cons hlt]
    have hshaped := (h.shaped.setValue (stampOf cap (2 ^ k) g.head) none).setStamp (stampOf cap (2 ^ k) g.head)
      (stampOf cap (2 ^ k) (g.head + cap))
    refine ⟨_, g.take.use (g.head % cap) (g.head + cap) .free, .popMut hpending hitems, ?_, Nat.le_succ _⟩
    refine h.exclusive hidle ⟨stampOf cap (2 ^ k) (g.head + cap), none⟩
      ⟨hshaped.cap_eq, hshaped.oneLap, hshaped.length, hshaped.pos, hshaped.lt, hshaped.word⟩ hnext h.tail rfl hlt ?_
      ((h.shaped.setValue _ _).getElem?_setStamp (h.shaped.getElem?_setValue hslot)) (fun y hy => ?_) ?_
      (fun y slot hy hok => hok.take hy) rfl rfl
    · rw [Ghost.elems_take, Ghost.head_take]
      omega
    · show ((s.queue.setValue _ _).setStamp _ _).buffer[y]? = _
      rw [(h.shaped.setValue _ _).getElem?_setStamp_of_ne hy, h.shaped.getElem?_setValue_of_ne hy]
    · refine .used (Nat.add_mod_right _ _) ⟨rfl, h.room, ?_⟩ (fun _ => rfl) fun hfull => by cases hfull
      rw [Ghost.head_take]
      omega

/-- Each step of the threads is matched by steps of the abstract queue that show the same. -/
theorem step (h : Inv cap k s f g) (hstamps : stampOf cap (2 ^ k) (g.elems.length + 2 * cap) < 2 ^ 64) {l : Option (Event ι α)}
    {s' : System ι α} (hstep : System.Step s l s') :
    ∃ n f' g', Run (Fifo.Step cap) n f l.toList f' ∧ Inv cap k s' f' g' ∧ g'.elems.length ≤ g.elems.length + 1 := by
  cases hstep with
  | @call i c hidle =>
    have hok := h.threads i
    rw [hidle] at hok
    refine ⟨1, f.put i (.called c [f.items.length]), g, Run.single (.call c hok), ?_, Nat.le_succ _⟩
    have hcalled : (f.put i (.called c [f.items.length])).Calls i c := ⟨_, Fifo.pending_put_self⟩
    refine h.quiet rfl rfl (fun j hji => Fifo.pending_put_of_ne hji) (fun c' seen hc => ?_) (by rw [hidle]; rfl) ?_
    · rw [Fifo.pending_put_self] at hc
      obtain ⟨-, rfl⟩ := Status.called.inj hc
      exact List.mem_singleton_self _
    · cases c <;> exact hcalled
  | @access i spurious q t hstep =>
    obtain ⟨q', t', hstep', n, f', g', hrun, hinv, hlen⟩ := h.access hstamps i spurious
    rw [hstep] at hstep'
    obtain ⟨rfl, rfl⟩ := Prod.mk.inj (Option.some.inj hstep')
    exact ⟨n, f', g', hrun, hinv, hlen⟩
  | @answer i a hdone =>
    have hok := h.threads i
    rw [hdone] at hok
    refine ⟨1, f.put i .idle, g, Run.single (.answer hok), ?_, Nat.le_succ _⟩
    refine h.quiet rfl rfl (fun j hji => Fifo.pending_put_of_ne hji) (fun c' seen hc => ?_) (by rw [hdone]; rfl) Fifo.pending_put_self
    rw [Fifo.pending_put_self] at hc
    cases hc
  | pushMut hidle hpush =>
    obtain ⟨f', g', hfifo, hinv, hlen⟩ := h.pushMut hstamps hidle hpush
    exact ⟨1, f', g', Run.single hfifo, hinv, hlen⟩
  | popMut hidle hpop =>
    obtain ⟨f', g', hfifo, hinv, hlen⟩ := h.popMut hstamps hidle hpop
    exact ⟨1, f', g', Run.single hfifo, hinv, hlen⟩

end Inv

/-! ### What the queue holds -/

/-- The values between the head and the tail are the elements that were not taken. -/
structure Filled (cap k : Nat) (q : ArrayQueue α) (elems : List α) (first : Nat) : Prop where
  shaped : q.Shaped cap k
  head : q.head = stampOf cap (2 ^ k) first
  tail : q.tail = stampOf cap (2 ^ k) elems.length
  le : first ≤ elems.length
  room : elems.length ≤ first + cap
  value : ∀ p, first ≤ p → p < elems.length → ∃ slot, q.buffer[p % cap]? = some slot ∧ slot.value = elems[p]?

namespace Filled
variable {q : ArrayQueue α} {elems : List α} {first : Nat}

theorem length_lt (h : Filled cap k q elems first) (hne : q.head ≠ q.tail) : first < elems.length := by
  refine h.le.lt_of_ne fun heq => hne ?_
  rw [h.head, h.tail, heq]

theorem front (h : Filled cap k q elems first) (hlt : first < elems.length) :
    ∃ slot, q.buffer[q.index q.head]? = some slot ∧ slot.value = some elems[first] := by
  obtain ⟨slot, hslot, hvalue⟩ := h.value first le_rfl hlt
  rw [List.getElem?_eq_getElem hlt] at hvalue
  exact ⟨slot, by rw [h.head, h.shaped.index_stampOf, hslot], hvalue⟩

theorem isSome_popMut (h : Filled cap k q elems first) : q.popMut.isSome := by
  unfold ArrayQueue.popMut
  split
  · rfl
  · rename_i hne
    obtain ⟨slot, hslot, hvalue⟩ := h.front (h.length_lt (Ne.symm hne))
    simp [hslot, hvalue]

theorem isSome_pushMut (h : Filled cap k q elems first) (value : α) : (q.pushMut value).isSome := by
  unfold ArrayQueue.pushMut
  split
  · rfl
  · obtain ⟨slot, hslot⟩ := h.shaped.getElem?_mod elems.length
    rw [h.tail, h.shaped.index_stampOf, hslot]
    rfl

/-- One step of the iterator takes the oldest element. -/
theorem intoIterNext (h : Filled cap k q elems first) (hstamps : stampOf cap (2 ^ k) (elems.length + 2 * cap) < 2 ^ 64)
    (hlt : first < elems.length) :
    ∃ q', q.intoIterNext = some (q', some elems[first]) ∧ Filled cap k q' elems (first + 1) := by
  have hpos := h.shaped.pos
  have hroom := h.room
  have hmono := (stampOf_strictMono h.shaped.pos h.shaped.lt).monotone
  have hnext := h.shaped.next_stampOf ((hmono (a := first + 1) (b := elems.length + 2 * cap) (by omega)).trans_lt hstamps)
  have hne : q.head ≠ q.tail := by
    rw [h.head, h.tail]
    exact fun heq => hlt.ne ((stampOf_strictMono h.shaped.pos h.shaped.lt).injective heq)
  obtain ⟨slot, hslot, hvalue⟩ := h.front hlt
  have hshaped := h.shaped.setValue q.head none
  refine ⟨{ q.setValue q.head none with head := q.next q.head }, ?_, ?_⟩
  · simp [ArrayQueue.intoIterNext, hne, hslot, hvalue]
  · refine ⟨⟨hshaped.cap_eq, hshaped.oneLap, hshaped.length, hshaped.pos, hshaped.lt, hshaped.word⟩, ?_, h.tail, hlt, by omega, ?_⟩
    · show q.next q.head = _
      rw [h.head, hnext]
    · intro p hfrom hto
      obtain ⟨slot, hslot, hvalue⟩ := h.value p (by omega) hto
      refine ⟨slot, ?_, hvalue⟩
      have hother : p % cap ≠ first % cap := by
        intro heq
        have := Nat.ModEq.add_le_of_lt heq.symm hfrom
        omega
      show (q.setValue q.head none).buffer[p % cap]? = some slot
      rw [h.head, h.shaped.getElem?_setValue_of_ne hother, hslot]

theorem dropped_some (h : Filled cap k q elems first) : q.dropped = some (elems.drop first) := by
  have hpos := h.shaped.pos
  have hroom := h.room
  have hlen : (elems.drop first).length = elems.length - first := List.length_drop
  have hbetween : q.between q.head q.tail = (elems.drop first).length := by
    rw [h.head, h.tail, h.shaped.between_stampOf h.le h.room, hlen]
  rw [ArrayQueue.dropped, hbetween]
  refine List.mapM_range_eq_some fun i hi => ?_
  rw [hlen] at hi
  obtain ⟨slot, hslot, hvalue⟩ := h.value (first + i) (by omega) (by omega)
  have hmod := Nat.mod_lt first hpos
  have hindex : (if q.index q.head + i < q.cap then q.index q.head + i else q.index q.head + i - q.cap) = (first + i) % cap := by
    rw [h.head, h.shaped.index_stampOf, h.shaped.cap_eq, Nat.add_mod first i, Nat.mod_eq_of_lt (a := i) (b := cap) (by omega)]
    split
    · rename_i hlt
      rw [Nat.mod_eq_of_lt hlt]
    · rename_i hge
      rw [Nat.mod_eq_sub_mod (not_lt.1 hge)]
      exact (Nat.mod_eq_of_lt (by omega)).symm
  simp [hindex, hslot, hvalue, List.getElem?_eq_getElem (show first + i < elems.length by omega)]

theorem drained_some (h : Filled cap k q elems first) (hstamps : stampOf cap (2 ^ k) (elems.length + 2 * cap) < 2 ^ 64) (c : Nat) :
    q.drained c = some ((elems.drop first).take c, (elems.drop first).drop c) := by
  induction c generalizing q first with
  | zero => simp [ArrayQueue.drained, h.dropped_some]
  | succ c ih =>
    rcases h.le.lt_or_eq with hlt | heq
    · obtain ⟨q', hnext, hfilled⟩ := h.intoIterNext hstamps hlt
      rw [List.drop_eq_getElem_cons hlt, List.take_succ_cons, List.drop_succ_cons]
      simp only [ArrayQueue.drained, hnext, ih hfilled, Option.bind_eq_bind, Option.bind_some]
      rfl
    · have hend : q.head = q.tail := by rw [h.head, h.tail, heq]
      have hnext : q.intoIterNext = some (q, none) := if_pos hend
      have hnil : elems.drop first = [] := List.drop_of_length_le heq.ge
      have hrest := ih h
      rw [hnil] at hrest ⊢
      simp [ArrayQueue.drained, hnext, hrest]

end Filled

namespace Inv
variable {s : System ι α} {f : Fifo ι α} {g : Ghost ι α}

theorem filled (h : Inv cap k s f g) (hidle : ∀ i, s.threads i = .idle) : Filled cap k s.queue g.elems g.head where
  shaped := h.shaped
  head := h.head
  tail := h.tail
  le := h.le
  room := h.room
  value p hfrom hto := by
    have hroom := h.room
    obtain ⟨-, -, slot, hslot, hvalue⟩ := (h.slot_idle hidle hfrom (by omega)).1 hto
    exact ⟨slot, hslot, hvalue⟩

end Inv

/-! ### Runs -/

section
variable [DecidableEq ι] {n : Nat} {q : ArrayQueue α} {s : System ι α} {events : List (Event ι α)}

/-- The stamps last for `n` elements. -/
theorem stamps_lt {t : Nat} (hcap : 0 < cap) (hlap : cap < 2 ^ k) (ht : t ≤ n) (hroom : (n / cap + 3) * 2 ^ k ≤ 2 ^ 64) :
    stampOf cap (2 ^ k) (t + 2 * cap) < 2 ^ 64 := by
  have hmod := Nat.mod_lt (t + 2 * cap) hcap
  have hdiv : (t + 2 * cap) / cap ≤ n / cap + 2 := by
    rw [Nat.add_mul_div_right t 2 hcap]
    exact Nat.add_le_add_right (Nat.div_le_div_right ht) 2
  have hmul := Nat.mul_le_mul_right (2 ^ k) hdiv
  rw [Nat.add_mul] at hmul hroom
  rw [stampOf]
  omega

/-- Every run stands for a run of the abstract queue. -/
theorem run_inv (hnew : ArrayQueue.new α cap = some q) (hrun : Run System.Step n (System.start ι q) events s)
    (hroom : (n / cap + 3) * q.oneLap ≤ 2 ^ 64) : 0 < cap ∧ cap < 2 ^ 64 ∧ (n / cap + 3) * 2 ^ (cap.log2 + 1) ≤ 2 ^ 64 ∧
      ∃ m f g, Run (Fifo.Step cap) m Fifo.empty events f ∧ Inv cap (cap.log2 + 1) s f g ∧ g.elems.length ≤ n := by
  have hlap : q.oneLap = 2 ^ (cap.log2 + 1) ∧ 0 < cap := by
    unfold ArrayQueue.new at hnew
    split at hnew
    · cases hnew
    · rename_i hne
      cases hnew
      exact ⟨by rw [nextPowerOfTwo, if_neg (by omega), Nat.add_sub_cancel], Nat.pos_of_ne_zero hne⟩
  rw [hlap.1] at hroom
  have hlt := Nat.lt_log2_self (n := cap)
  have hcap : cap < 2 ^ 64 := by
    rw [Nat.add_mul] at hroom
    omega
  have hinv := Inv.start (ι := ι) hcap hnew
  have hpos := hinv.shaped.pos
  obtain ⟨m, f, hfifo, g, hg, hlen⟩ := hrun.simulates
    (R := fun m s f => ∃ g : Ghost ι α, Inv cap (cap.log2 + 1) s f g ∧ g.elems.length ≤ m)
    (fun m (hm : m < n) s f l s' hrel hstep => by
      obtain ⟨g, hg, hlen⟩ := hrel
      obtain ⟨c, f', g', hrun', hinv', hlen'⟩ := hg.step (stamps_lt hpos hlt (hlen.trans hm.le) hroom) hstep
      exact ⟨c, f', hrun', g', hinv', hlen'.trans (Nat.succ_le_succ hlen)⟩) le_rfl ⟨_, hinv, Nat.zero_le _⟩
  exact ⟨hpos, hcap, hroom, m, f, g, hfifo, hg, hlen⟩

theorem new_one : ArrayQueue.new Nat 1 = some ⟨0, 0, [⟨0, none⟩], 1, 2⟩ := rfl

/-- A push of one thread on a queue of one slot, and a `force_push` of another that replaces its element. -/
theorem run_replace : ∃ s, Run System.Step 15 (System.start Bool ⟨0, 0, [⟨0, none⟩], 1, 2⟩)
    [.call false (.push 5), .answer false (.pushed none), .call true (.forcePush 6), .answer true (.forced (some 5))] s ∧
      ∀ i, s.threads i = .idle := by
  have h₁ := Run.single (System.Step.call (s := System.start Bool ⟨0, 0, [⟨0, none⟩], 1, 2⟩) false (.push 5) rfl)
  have h₂ := h₁.snoc (.access false false rfl)
  have h₃ := h₂.snoc (.access false false rfl)
  have h₄ := h₃.snoc (.access false false rfl)
  have h₅ := h₄.snoc (.access false false rfl)
  have h₆ := h₅.snoc (.access false false rfl)
  have h₇ := h₆.snoc (.answer false rfl)
  have h₈ := h₇.snoc (.call true (.forcePush 6) rfl)
  have h₉ := h₈.snoc (.access true false rfl)
  have h₁₀ := h₉.snoc (.access true false rfl)
  have h₁₁ := h₁₀.snoc (.access true false rfl)
  have h₁₂ := h₁₁.snoc (.access true false rfl)
  have h₁₃ := h₁₂.snoc (.access true false rfl)
  have h₁₄ := h₁₃.snoc (.access true false rfl)
  exact ⟨_, h₁₄.snoc (.answer true rfl), fun i => by cases i <;> rfl⟩

/-- The calls and answers of every run of the threads are those of a run of the abstract queue. -/
theorem linearizable (hnew : ArrayQueue.new α cap = some q) (hrun : Run System.Step n (System.start ι q) events s)
    (hroom : (n / cap + 3) * q.oneLap ≤ 2 ^ 64) : ∃ m f, Run (Fifo.Step cap) m Fifo.empty events f := by
  obtain ⟨-, -, -, m, f, -, hfifo, -⟩ := run_inv hnew hrun hroom
  exact ⟨m, f, hfifo⟩

theorem linearizable_replace : ∃ m f, Run (Fifo.Step 1) m Fifo.empty
    [.call false (.push 5), .answer false (.pushed none), .call true (.forcePush 6), .answer true (.forced (some 5))] f := by
  obtain ⟨s, hrun, -⟩ := run_replace
  exact linearizable new_one hrun (by decide)

/-- In every state, the next access of every thread is defined, two threads never access the value of one slot, and a client that
has the queue for itself can push and pop. -/
theorem access_safe (hnew : ArrayQueue.new α cap = some q) (hrun : Run System.Step n (System.start ι q) events s)
    (hroom : (n / cap + 3) * q.oneLap ≤ 2 ^ 64) : (∀ i spurious, (s.queue.step spurious (s.threads i)).isSome) ∧
      (∀ i j x, (s.threads i).touched s.queue = some x → (s.threads j).touched s.queue = some x → i = j) ∧
      ((∀ i, s.threads i = .idle) → s.queue.popMut.isSome ∧ ∀ value, (s.queue.pushMut value).isSome) := by
  obtain ⟨hpos, hcap, hroom', m, f, g, -, hinv, hlen⟩ := run_inv hnew hrun hroom
  have hstamps := stamps_lt hpos Nat.lt_log2_self hlen hroom'
  refine ⟨fun i spurious => ?_, fun i j x hi hj => ?_, fun hidle => ?_⟩
  · obtain ⟨q, t, hstep, -⟩ := hinv.access hstamps i spurious
    rw [hstep]
    rfl
  · exact Option.some.inj ((hinv.owner_of_touched hi).symm.trans (hinv.owner_of_touched hj))
  · have hfilled := hinv.filled hidle
    exact ⟨hfilled.isSome_popMut, hfilled.isSome_pushMut⟩

theorem access_safe_replace : ∃ (events : List (Event Bool Nat)) (s : System Bool Nat),
    Run System.Step 15 (System.start Bool ⟨0, 0, [⟨0, none⟩], 1, 2⟩) events s ∧
      (∀ i spurious, (s.queue.step spurious (s.threads i)).isSome) ∧ s.queue.popMut.isSome ∧ (s.queue.pushMut 7).isSome := by
  obtain ⟨s, hrun, hidle⟩ := run_replace
  obtain ⟨haccess, -, hmut⟩ := access_safe new_one hrun (by decide)
  obtain ⟨hpop, hpush⟩ := hmut hidle
  exact ⟨_, s, hrun, haccess, hpop, hpush 7⟩

/-- When no call is under way, `c` steps of the iterator over the queue give its oldest elements, and dropping the iterator drops the
others. -/
theorem drained_eq (hnew : ArrayQueue.new α cap = some q) (hrun : Run System.Step n (System.start ι q) events s)
    (hroom : (n / cap + 3) * q.oneLap ≤ 2 ^ 64) (hidle : ∀ i, s.threads i = .idle) :
    ∃ m f, Run (Fifo.Step cap) m Fifo.empty events f ∧ (∀ i, f.pending i = .idle) ∧
      ∀ c, s.queue.drained c = some (f.items.take c, f.items.drop c) := by
  obtain ⟨hpos, hcap, hroom', m, f, g, hfifo, hinv, hlen⟩ := run_inv hnew hrun hroom
  have hstamps := stamps_lt hpos Nat.lt_log2_self hlen hroom'
  refine ⟨m, f, hfifo, hinv.pending_idle hidle, fun c => ?_⟩
  rw [hinv.items]
  exact (hinv.filled hidle).drained_some hstamps c

theorem drained_eq_replace : ∃ (events : List (Event Bool Nat)) (s : System Bool Nat) (m : Nat) (f : Fifo Bool Nat),
    Run System.Step 15 (System.start Bool ⟨0, 0, [⟨0, none⟩], 1, 2⟩) events s ∧ Run (Fifo.Step 1) m Fifo.empty events f ∧
      s.queue.drained 1 = some (f.items.take 1, f.items.drop 1) := by
  obtain ⟨s, hrun, hidle⟩ := run_replace
  obtain ⟨m, f, hfifo, -, hdrained⟩ := drained_eq new_one hrun (by decide) hidle
  exact ⟨_, s, m, f, hrun, hfifo, hdrained 1⟩

end

end Queue
end BmlSys
