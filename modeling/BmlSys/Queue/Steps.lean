import BmlSys.Queue.Invariant

/-!
# The accesses of the bounded queue

Where `Inv` holds, the next access of every thread is defined, and the abstract queue follows it in at most one step
(`Inv.access`), as long as the stamps have room for all elements. A step changes the values and stamps of at most one slot, and
`Move` lists what such a step has to show.
-/

namespace BmlSys
namespace Queue
open Simulation (Run)
variable {ι α : Type} {cap k : Nat} [DecidableEq ι]

/-- The state before a step of thread `i` and the state after it. -/
structure Move (cap k : Nat) (i : ι) (x : Nat) (s : System ι α) (f : Fifo ι α) (g : Ghost ι α) (q' : ArrayQueue α) (t' : Thread α)
    (f' : Fifo ι α) (g' : Ghost ι α) : Prop where
  shaped : q'.Shaped cap k
  head : q'.head = stampOf cap (2 ^ k) g'.head
  tail : q'.tail = stampOf cap (2 ^ k) g'.elems.length
  items : f'.items = g'.elems.drop g'.head
  le : g'.head ≤ g'.elems.length
  room : g'.elems.length ≤ g'.head + cap
  slot : ∀ slot : Slot α, q'.buffer[x]? = some slot → SlotOk cap (2 ^ k) g' x slot
  slots : ∀ (y : Nat) (slot : Slot α), y ≠ x → SlotOk cap (2 ^ k) g y slot → SlotOk cap (2 ^ k) g' y slot
  touch : Touch i x s.queue.buffer q'.buffer g g'
  kept : ∀ j, j ≠ i → Kept cap s.queue.buffer q'.buffer f f' g g' j
  thread : ThreadOk cap (2 ^ k) q'.buffer f' g' i t'
  seen : ∀ j c seen, f'.pending j = .called c seen → f'.items.length ∈ seen
  refilling : ∀ j, f'.refilling = some j → j ≠ i ∧ f.refilling = some j ∨ j = i ∧ ∃ value tail, t' = .storeTail value tail
  only : ∀ y : Nat, (g.phase y).owner = some i → y = x
  owned : ∀ j, (g'.phase x).owner = some j → j = i ∧ ∃ p, p % cap = x ∧ t'.claim = some (stampOf cap (2 ^ k) p)

namespace System
variable {s : System ι α} {i j : ι} {t : Thread α}

@[simp] theorem queue_set : (s.set i t).queue = s.queue := rfl
@[simp] theorem threads_set_self : (s.set i t).threads i = t := Function.update_self ..
theorem threads_set_of_ne (h : j ≠ i) : (s.set i t).threads j = s.threads j := Function.update_of_ne h ..

end System

theorem Move.inv {i : ι} {x : Nat} {s : System ι α} {f f' : Fifo ι α} {g g' : Ghost ι α} {q' : ArrayQueue α} {t' : Thread α}
    (h : Inv cap k s f g) (hm : Move cap k i x s f g q' t' f' g') : Inv cap k ((System.mk q' s.threads).set i t') f' g' where
  shaped := hm.shaped
  head := hm.head
  tail := hm.tail
  items := hm.items
  le := hm.le
  room := hm.room
  slots y slot hy := by
    by_cases hyx : y = x
    · subst hyx
      exact hm.slot slot hy
    · exact hm.slots y slot hyx (h.slots y slot ((hm.touch.other y hyx).1.symm.trans hy))
  threads j := by
    by_cases hji : j = i
    · subst hji
      rw [System.threads_set_self]
      exact hm.thread
    · rw [System.threads_set_of_ne hji]
      exact (h.threads j).kept (hm.kept j hji)
  seen := hm.seen
  refilling j hj := by
    rcases hm.refilling j hj with ⟨hji, hj⟩ | ⟨rfl, value, tail, rfl⟩
    · rw [System.threads_set_of_ne hji]
      exact h.refilling j hj
    · exact ⟨value, tail, System.threads_set_self⟩
  owned y j hy := by
    by_cases hyx : y = x
    · subst hyx
      obtain ⟨rfl, p, hp, hclaim⟩ := hm.owned j hy
      exact ⟨p, hp, by rw [System.threads_set_self, hclaim]⟩
    · rw [(hm.touch.other y hyx).2.1] at hy
      have hji : j ≠ i := fun hji => hyx (hm.only y (hji ▸ hy))
      rw [System.threads_set_of_ne hji]
      exact h.owned y j hy

/-! ### The steps -/

/-- The next access of thread `i` is defined, and the abstract queue follows. -/
def Advances (cap k : Nat) (s : System ι α) (f : Fifo ι α) (g : Ghost ι α) (i : ι) (spurious : Bool) : Prop :=
  ∃ q t, s.queue.step spurious (s.threads i) = some (q, t) ∧ ∃ n f' g', Run (Fifo.Step cap) n f [] f' ∧
    Inv cap k ((System.mk q s.threads).set i t) f' g' ∧ g'.elems.length ≤ g.elems.length + 1

namespace Inv
variable {s : System ι α} {f f' : Fifo ι α} {g g' : Ghost ι α} {i : ι} {t : Thread α} {spurious : Bool}

/-- A step of thread `i` that leaves the queue as it is. -/
theorem quiet (h : Inv cap k s f g) (hitems : f'.items = f.items) (hrefilling : f'.refilling = f.refilling)
    (hpending : ∀ j, j ≠ i → f'.pending j = f.pending j) (hseen : ∀ c seen, f'.pending i = .called c seen → f.items.length ∈ seen)
    (hfrom : (s.threads i).claim = none) (ht : ThreadOk cap (2 ^ k) s.queue.buffer f' g i t) :
    Inv cap k (s.set i t) f' g where
  shaped := h.shaped
  head := h.head
  tail := h.tail
  items := hitems.trans h.items
  le := h.le
  room := h.room
  slots := h.slots
  threads j := by
    by_cases hji : j = i
    · subst hji
      rw [System.threads_set_self]
      exact ht
    · rw [System.threads_set_of_ne hji]
      have hpending := hpending j hji
      refine (h.threads j).kept ⟨le_rfl, List.prefix_rfl, fun _ slot hslot => ⟨slot, hslot, le_rfl⟩, fun _ _ => ⟨rfl, rfl, rfl⟩,
        fun hj => ⟨hrefilling.trans hj, rfl⟩, fun _ => hpending, fun c seen hc => ?_⟩
      exact ⟨seen, hpending.trans hc, fun _ hn => hn, .inl rfl, .inl rfl⟩
  seen j c seen hc := by
    rw [hitems]
    by_cases hji : j = i
    · subst hji
      exact hseen c seen hc
    · exact h.seen j c seen ((hpending j hji).symm.trans hc)
  refilling j hj := by
    rw [hrefilling] at hj
    obtain ⟨value, tail, hthread⟩ := h.refilling j hj
    have hji : j ≠ i := by
      rintro rfl
      rw [hthread] at hfrom
      cases hfrom
    exact ⟨value, tail, (System.threads_set_of_ne hji).trans hthread⟩
  owned x j hx := by
    obtain ⟨p, hp, hclaim⟩ := h.owned x j hx
    have hji : j ≠ i := by
      rintro rfl
      rw [hfrom] at hclaim
      cases hclaim
    exact ⟨p, hp, by rw [System.threads_set_of_ne hji, hclaim]⟩

/-- An access that only loads. -/
theorem advances (h : Inv cap k s f g) (hstep : s.queue.step spurious (s.threads i) = some (s.queue, t))
    (hfrom : (s.threads i).claim = none) (ht : ThreadOk cap (2 ^ k) s.queue.buffer f g i t) :
    Advances cap k s f g i spurious :=
  ⟨s.queue, t, hstep, 0, f, g, .nil f, h.quiet rfl rfl (fun _ _ => rfl) (h.seen i) hfrom ht, Nat.le_succ _⟩

/-- An access at which the call takes effect and changes nothing. -/
theorem advances_answer (h : Inv cap k s f g) {a : Answer α} (hstep : s.queue.step spurious (s.threads i) = some (s.queue, .done a))
    (hfrom : (s.threads i).claim = none) (hfifo : Fifo.Step cap f none (f.put i (.done a))) :
    Advances cap k s f g i spurious := by
  refine ⟨s.queue, .done a, hstep, 1, _, g, Run.single hfifo, ?_, Nat.le_succ _⟩
  refine h.quiet rfl rfl (fun _ hji => Fifo.pending_put_of_ne hji) (fun c seen hc => ?_) hfrom Fifo.pending_put_self
  rw [Fifo.pending_put_self] at hc
  cases hc

/-- An access that changes the queue. -/
theorem advances_move (h : Inv cap k s f g) {x n : Nat} {q' : ArrayQueue α}
    (hstep : s.queue.step spurious (s.threads i) = some (q', t)) (hfifo : Run (Fifo.Step cap) n f [] f')
    (hmove : Move cap k i x s f g q' t f' g') (hlen : g'.elems.length ≤ g.elems.length + 1) : Advances cap k s f g i spurious :=
  ⟨q', t, hstep, n, f', g', hfifo, hmove.inv h, hlen⟩

/-- The thread that uses a slot replaces its value. -/
theorem advances_setValue (h : Inv cap k s f g) {p : Nat} {value : Option α} (value' : Option α) {phase : Phase ι}
    (hp : Holds cap s.queue.buffer g p phase value) (howner : phase.owner = some i)
    (hstep : s.queue.step spurious (s.threads i) = some (s.queue.setValue (stampOf cap (2 ^ k) p) value', t))
    (hfree : f.refilling ≠ some i) (hclaim : (s.threads i).claim = some (stampOf cap (2 ^ k) p))
    (hclaim' : t.claim = some (stampOf cap (2 ^ k) p)) (hthread : ∀ b, Holds cap b g p phase value' → ThreadOk cap (2 ^ k) b f g i t) :
    Advances cap k s f g i spurious := by
  obtain ⟨slot, hslot, -, hok, -⟩ := h.holds_slot hp
  obtain ⟨hpos, hphase, -⟩ := hp
  have hself : (s.queue.setValue (stampOf cap (2 ^ k) p) value').buffer[p % cap]? = some { slot with value := value' } :=
    h.shaped.getElem?_setValue hslot
  have htouch : Touch i (p % cap) s.queue.buffer (s.queue.setValue (stampOf cap (2 ^ k) p) value').buffer g g := by
    refine ⟨le_rfl, List.prefix_rfl, fun y hy => ⟨h.shaped.getElem?_setValue_of_ne hy, rfl, rfl⟩, ?_, ?_⟩
    · intro slot' hslot'
      rw [hslot] at hslot'
      cases hslot'
      exact ⟨_, hself, le_rfl⟩
    · intro j hj
      rw [hphase, howner] at hj
      exact (Option.some.inj hj).symm
  have hmove : Move cap k i (p % cap) s f g (s.queue.setValue (stampOf cap (2 ^ k) p) value') t f g := by
    refine ⟨h.shaped.setValue _ _, h.head, h.tail, h.items, h.le, h.room, fun slot' hslot' => ?_, fun _ _ _ hok => hok, htouch,
      fun j hji => htouch.kept hji rfl rfl rfl rfl, hthread _ ⟨hpos, hphase, _, hself, rfl⟩, h.seen, fun j hj => .inl ⟨?_, hj⟩,
      h.only (.inr hclaim), fun j hj => ⟨htouch.owner j hj, p, rfl, hclaim'⟩⟩
    · rw [hself] at hslot'
      cases hslot'
      refine ⟨hok.index, hok.fits, fun hfree => ?_, fun hfull => ?_⟩
      · rw [hphase] at hfree
        rw [hfree] at howner
        cases howner
      · rw [hphase] at hfull
        rw [hfull] at howner
        cases howner
    · rintro rfl
      exact hfree hj
  exact h.advances_move hstep (.nil f) hmove (Nat.le_succ _)

/-- The thread that uses a slot gives it up with a new stamp, and has its answer. -/
theorem advances_setStamp (h : Inv cap k s f g) {p : Nat} (p' stamp : Nat) {value : Option α} {phase : Phase ι} (phase' : Phase ι) {a : Answer α}
    (hp : Holds cap s.queue.buffer g p phase value) (howner : phase.owner = some i)
    (hstep : s.queue.step spurious (s.threads i) = some (s.queue.setStamp (stampOf cap (2 ^ k) p) stamp, .done a))
    (hpending : f.pending i = .done a) (hfree : f.refilling ≠ some i) (hclaim : (s.threads i).claim = some (stampOf cap (2 ^ k) p))
    (hgiven : phase'.owner = none) (hmod : p' % cap = p % cap)
    (hle : ∀ old, phase.Fits cap (2 ^ k) g.head g.elems.length p old → old ≤ stamp)
    (hfits : phase'.Fits cap (2 ^ k) g.head g.elems.length p' stamp) (hnone : phase' = .free → value = none)
    (hfull : phase' = .full → value = g.elems[p']?) : Advances cap k s f g i spurious := by
  obtain ⟨slot, hslot, rfl, -, hold⟩ := h.holds_slot hp
  obtain ⟨-, hphase, -⟩ := hp
  have hself : (s.queue.setStamp (stampOf cap (2 ^ k) p) stamp).buffer[p % cap]? = some { slot with stamp } :=
    h.shaped.getElem?_setStamp hslot
  have htouch : Touch i (p % cap) s.queue.buffer (s.queue.setStamp (stampOf cap (2 ^ k) p) stamp).buffer g
      (g.use (p % cap) p' phase') := by
    refine ⟨le_rfl, List.prefix_rfl, fun y hy =>
      ⟨h.shaped.getElem?_setStamp_of_ne hy, g.phase_use_of_ne hy, g.pos_use_of_ne hy⟩, ?_, ?_⟩
    · intro slot' hslot'
      rw [hslot] at hslot'
      cases hslot'
      exact ⟨_, hself, hle _ hold⟩
    · intro j hj
      rw [hphase, howner] at hj
      exact (Option.some.inj hj).symm
  have hmove : Move cap k i (p % cap) s f g (s.queue.setStamp (stampOf cap (2 ^ k) p) stamp) (.done a) f
      (g.use (p % cap) p' phase') := by
    refine ⟨h.shaped.setStamp _ _, h.head, h.tail, h.items, h.le, h.room, fun slot' hslot' => ?_,
      fun _ _ hy hok => hok.use_of_ne hy, htouch, fun j hji => htouch.kept hji rfl rfl rfl rfl, hpending, h.seen,
      fun j hj => .inl ⟨?_, hj⟩, h.only (.inr hclaim), fun j hj => ?_⟩
    · rw [hself] at hslot'
      cases hslot'
      exact .used hmod hfits hnone hfull
    · rintro rfl
      exact hfree hj
    · rw [Ghost.phase_use_self, hgiven] at hj
      cases hj
  exact h.advances_move hstep (.nil f) hmove (Nat.le_succ _)

/-- The next element goes into its slot. -/
theorem advances_add (h : Inv cap k s f g) (hstamps : stampOf cap (2 ^ k) (g.elems.length + 2 * cap) < 2 ^ 64) {value : α}
    {old : Option α} {phase : Phase ι} (phase' : Phase ι) {a : Answer α} (hp : Holds cap s.queue.buffer g g.elems.length phase old)
    (howner : ∀ j, phase.owner = some j → j = i) (hroom : g.elems.length < g.head + cap)
    (hstep : s.queue.step spurious (s.threads i) =
      some ({ s.queue with tail := s.queue.next (stampOf cap (2 ^ k) g.elems.length) }, t))
    (hfifo : Fifo.Step cap f none f') (hitems : f'.items = f.items ++ [value])
    (hpending : ∀ j, j ≠ i → f'.pending j = (f.pending j).see f'.items.length) (hdone : f'.pending i = .done a)
    (hfrom : ∀ j, f.refilling = some j → j = i) (hto : f'.refilling = none) (howner' : phase'.owner = some i)
    (hclaim : (s.threads i).claim = none ∨ (s.threads i).claim = some (stampOf cap (2 ^ k) g.elems.length))
    (hclaim' : t.claim = some (stampOf cap (2 ^ k) g.elems.length))
    (hfits : ∀ stamp, phase.Fits cap (2 ^ k) g.head g.elems.length g.elems.length stamp →
      phase'.Fits cap (2 ^ k) g.head (g.elems.length + 1) g.elems.length stamp)
    (hthread : ∀ g' : Ghost ι α, g'.elems[g.elems.length]? = some value →
      Holds cap s.queue.buffer g' g.elems.length phase' old → ThreadOk cap (2 ^ k) s.queue.buffer f' g' i t) :
    Advances cap k s f g i spurious := by
  obtain ⟨slot, hslot, rfl, -, hold⟩ := h.holds_slot hp
  obtain ⟨-, hphase, -⟩ := hp
  have hpos := h.shaped.pos
  have hnext := h.shaped.next_stampOf (h.stamp_lt hstamps (p := g.elems.length + 1) (by omega))
  have hlen : f'.items.length = f.items.length + 1 := by rw [hitems, List.length_append, List.length_singleton]
  have hlen' : (g.elems ++ [value]).length = g.elems.length + 1 := by rw [List.length_append, List.length_singleton]
  have htouch : Touch i (g.elems.length % cap) s.queue.buffer s.queue.buffer g
      ((g.add value).use (g.elems.length % cap) g.elems.length phase') := by
    refine ⟨le_rfl, List.prefix_append _ _, fun y hy => ⟨rfl, (g.add value).phase_use_of_ne hy, (g.add value).pos_use_of_ne hy⟩,
      fun slot hslot => ⟨slot, hslot, le_rfl⟩, fun j hj => ?_⟩
    rw [hphase] at hj
    exact howner j hj
  refine h.advances_move hstep (Run.single hfifo) (?_ : Move cap k i (g.elems.length % cap) s f g _ t f'
    ((g.add value).use (g.elems.length % cap) g.elems.length phase')) hlen'.le
  refine ⟨⟨h.shaped.cap_eq, h.shaped.oneLap, h.shaped.length, h.shaped.pos, h.shaped.lt, h.shaped.word⟩, h.head, ?_, ?_, ?_, ?_,
    fun slot' hslot' => ?_, fun y slot hy hok => (hok.add hy).use_of_ne hy, htouch, fun j hji => ?_, ?_, fun j c seen hc => ?_,
    fun j hj => ?_, h.only hclaim, fun j hj => ?_⟩
  · simp only [Ghost.elems_use, Ghost.elems_add, hlen']
    exact hnext
  · rw [hitems, h.items]
    exact (List.drop_append_of_le_length h.le).symm
  · exact h.le.trans (by rw [Ghost.elems_use, Ghost.elems_add, hlen']; exact Nat.le_succ _)
  · simp only [Ghost.elems_use, Ghost.elems_add, hlen']
    exact hroom
  · rw [hslot] at hslot'
    cases hslot'
    refine .used rfl (by rw [Ghost.elems_add, hlen']; exact hfits _ hold) (fun hfree => ?_) fun hfull => ?_
    · rw [hfree] at howner'
      cases howner'
    · rw [hfull] at howner'
      cases howner'
  · exact htouch.kept_change hji (hpending j hji) (fun hj => absurd (hfrom j hj) hji) (.inr (by omega)) (.inl rfl)
  · refine hthread _ ?_ (.of_use rfl hslot)
    rw [Ghost.elems_use, Ghost.elems_add, List.getElem?_append_right le_rfl, Nat.sub_self]
    rfl
  · by_cases hji : j = i
    · subst hji
      rw [hdone] at hc
      cases hc
    · rw [hpending j hji] at hc
      exact Status.mem_of_see hc
  · rw [hto] at hj
    cases hj
  · rw [Ghost.phase_use_self, howner'] at hj
    exact ⟨(Option.some.inj hj).symm, _, rfl, hclaim'⟩

/-- The oldest element leaves its slot. -/
theorem advances_take (h : Inv cap k s f g) {value : α} {p : Nat} (phase : Phase ι) {status : Status α}
    (hp : Holds cap s.queue.buffer g g.head .full (some value)) (hlt : g.head < g.elems.length)
    (hstep : s.queue.step spurious (s.threads i) = some ({ s.queue with head := stampOf cap (2 ^ k) (g.head + 1) }, t))
    (hfifo : Fifo.Step cap f none f') (hitems : f'.items = g.elems.drop (g.head + 1))
    (hpending : ∀ j, j ≠ i → f'.pending j = (f.pending j).see f'.items.length) (hown : f'.pending i = status)
    (hstatus : ∀ c seen, status ≠ .called c seen) (hkeep : ∀ j, j ≠ i → f.refilling = some j → f'.refilling = some j)
    (hrefilling : ∀ j, f'.refilling = some j → j ≠ i ∧ f.refilling = some j ∨ j = i ∧ ∃ value tail, t = .storeTail value tail)
    (hmod : p % cap = g.head % cap) (howner : phase.owner = some i) (hclaim : (s.threads i).claim = none)
    (hclaim' : t.claim = some (stampOf cap (2 ^ k) p))
    (hfits : phase.Fits cap (2 ^ k) (g.head + 1) g.elems.length p (stampOf cap (2 ^ k) g.head + 1))
    (hthread : ∀ g' : Ghost ι α, g'.elems = g.elems → Holds cap s.queue.buffer g' p phase (some value) →
      ThreadOk cap (2 ^ k) s.queue.buffer f' g' i t) :
    Advances cap k s f g i spurious := by
  obtain ⟨⟨stamp, _⟩, hslot, rfl, -, hold⟩ := h.holds_slot hp
  obtain ⟨rfl, -, -⟩ := hold
  obtain ⟨-, hphase, -⟩ := hp
  have hlen : f'.items.length < cap := by
    have hroom := h.room
    rw [hitems, List.length_drop]
    omega
  have htouch : Touch i (g.head % cap) s.queue.buffer s.queue.buffer g (g.take.use (g.head % cap) p phase) := by
    refine ⟨Nat.le_succ _, List.prefix_rfl, fun y hy => ⟨rfl, g.take.phase_use_of_ne hy, g.take.pos_use_of_ne hy⟩,
      fun slot hslot => ⟨slot, hslot, le_rfl⟩, fun j hj => ?_⟩
    rw [hphase] at hj
    cases hj
  refine h.advances_move hstep (Run.single hfifo) (?_ : Move cap k i (g.head % cap) s f g _ t f' (g.take.use (g.head % cap) p phase))
    (Nat.le_succ _)
  refine ⟨⟨h.shaped.cap_eq, h.shaped.oneLap, h.shaped.length, h.shaped.pos, h.shaped.lt, h.shaped.word⟩, rfl, h.tail, hitems, hlt,
    h.room.trans ?_, fun slot' hslot' => ?_, fun y slot hy hok => (hok.take hy).use_of_ne hy, htouch, fun j hji => ?_,
    hthread _ rfl (.of_use hmod hslot), fun j c seen hc => ?_, hrefilling, h.only (.inl hclaim), fun j hj => ?_⟩
  · simp only [Ghost.head_use, Ghost.head_take]
    omega
  · rw [hslot] at hslot'
    cases hslot'
    refine .used hmod hfits (fun hfree => ?_) fun hfull => ?_
    · rw [hfree] at howner
      cases howner
    · rw [hfull] at howner
      cases howner
  · exact htouch.kept_change hji (hpending j hji) (fun hj => ⟨hkeep j hji hj, rfl⟩) (.inl rfl) (.inr hlen.ne)
  · by_cases hji : j = i
    · subst hji
      exact absurd (hown.symm.trans hc) (hstatus c seen)
    · rw [hpending j hji] at hc
      exact Status.mem_of_see hc
  · rw [Ghost.phase_use_self, howner] at hj
    exact ⟨(Option.some.inj hj).symm, p, hmod, hclaim'⟩

/-! ### The accesses -/

theorem loadStamp (h : Inv cap k s f g) (hstamps : stampOf cap (2 ^ k) (g.elems.length + 2 * cap) < 2 ^ 64) {value : α} {force : Bool}
    {tail : Nat} (hthread : s.threads i = .loadStamp value force tail) : Advances cap k s f g i spurious := by
  have hok := h.threads i
  rw [hthread] at hok
  obtain ⟨hcalls, p, hp, rfl⟩ := hok
  have hfrom : (s.threads i).claim = none := by rw [hthread]; rfl
  obtain ⟨slot, hslot⟩ := h.shaped.getElem?_mod p
  have hindex := h.step_slot hslot
  by_cases hfree : stampOf cap (2 ^ k) p = slot.stamp
  · refine h.advances (t := .moveTail value force (stampOf cap (2 ^ k) p)) ?_ hfrom ⟨hcalls, p, hp, rfl, slot, hslot, hfree.le⟩
    rw [hthread, ArrayQueue.step, hindex]
    exact if_pos hfree
  · by_cases hfull : wrappingAdd slot.stamp s.queue.oneLap = stampOf cap (2 ^ k) p + 1
    · have hstep : s.queue.step spurious (s.threads i) = some (s.queue, if force then .takeHead value (stampOf cap (2 ^ k) p)
          else .checkHead value (stampOf cap (2 ^ k) p)) := by
        simp [hthread, ArrayQueue.step, hindex, hfree, hfull]
      refine h.advances hstep hfrom ?_
      cases force with
      | false => exact ⟨hcalls, p, hp, rfl⟩
      | true =>
        rw [wrappingAdd, h.shaped.oneLap, Nat.mod_eq_of_lt (h.slot_room hstamps hslot)] at hfull
        have hlap := h.shaped.lt
        -- the stamp is of the lap before, so there is one
        have hcap : cap ≤ p := by
          by_contra hlt
          have : stampOf cap (2 ^ k) p = p := by
            rw [stampOf, Nat.div_eq_of_lt (not_le.1 hlt), Nat.mod_eq_of_lt (not_le.1 hlt), Nat.zero_mul, Nat.zero_add]
          omega
        obtain ⟨r, rfl⟩ := Nat.exists_eq_add_of_le' hcap
        rw [stampOf_add_cap h.shaped.pos] at hfull
        rw [Nat.add_mod_right] at hslot
        exact ⟨hcalls, r, hp, rfl, slot, hslot, by omega⟩
    · refine h.advances (t := .loadTail value force) ?_ hfrom hcalls
      simp [hthread, ArrayQueue.step, hindex, hfree, hfull]

theorem moveTail (h : Inv cap k s f g) (hstamps : stampOf cap (2 ^ k) (g.elems.length + 2 * cap) < 2 ^ 64) {value : α} {force : Bool}
    {tail : Nat} (hthread : s.threads i = .moveTail value force tail) : Advances cap k s f g i spurious := by
  have hok := h.threads i
  rw [hthread] at hok
  obtain ⟨hcalls, p, hp, rfl, hr⟩ := hok
  have hfrom : (s.threads i).claim = none := by rw [hthread]; rfl
  by_cases hmove : s.queue.tail = stampOf cap (2 ^ k) p ∧ spurious = false
  · obtain rfl := h.stamp_inj (h.tail.symm.trans hmove.1)
    obtain ⟨hphase, hholds, hroom, hnone⟩ := h.slot_of_tail hr
    have hlength := h.length_items
    have hle := h.le
    have hitems : f.items.length < cap := by omega
    refine h.advances_add hstamps (.writing i) (a := .inserted α force) (t := .write value force (stampOf cap (2 ^ k) g.elems.length))
      hholds (fun j hj => by cases hj) hroom ?_
      (?_ : Fifo.Step cap f none ((f.change (f.items ++ [value])).put i (.done (.inserted α force)))) rfl
      (fun j hji => Fifo.pending_put_of_ne hji) Fifo.pending_put_self (fun j hj => ?_) hnone rfl (.inl hfrom) rfl (fun stamp hfits => ?_)
      fun g' helem hheld => ?_
    · simp [hthread, ArrayQueue.step, hmove]
    · obtain ⟨seen, hcalled⟩ := hcalls
      cases force with
      | false => exact .push hcalled hnone hitems
      | true => exact .add hcalled hnone hitems
    · rw [hnone] at hj
      cases hj
    · exact ⟨hfits.1, h.le, Nat.lt_succ_self _⟩
    · exact ⟨Fifo.pending_put_self, _, rfl, helem, hheld⟩
  · refine h.advances (t := .loadStamp value force s.queue.tail) ?_ hfrom ⟨hcalls, _, le_rfl, h.tail⟩
    simp [hthread, ArrayQueue.step, hmove]

theorem write (h : Inv cap k s f g) {value : α} {force : Bool} {tail : Nat} (hthread : s.threads i = .write value force tail) :
    Advances cap k s f g i spurious := by
  have hok := h.threads i
  rw [hthread] at hok
  obtain ⟨hdone, p, rfl, helem, hp⟩ := hok
  obtain ⟨slot, hslot, -⟩ := h.holds_slot hp
  have hindex := h.step_slot hslot
  refine h.advances_setValue (some value) (t := .publish force (stampOf cap (2 ^ k) p)) hp rfl ?_
    (h.not_refilling (by simp [hthread])) (by rw [hthread]; rfl) rfl fun b hb => ⟨hdone, p, value, rfl, helem, hb⟩
  simp [hthread, ArrayQueue.step, hindex]

theorem publish (h : Inv cap k s f g) {force : Bool} {tail : Nat} (hthread : s.threads i = .publish force tail) :
    Advances cap k s f g i spurious := by
  have hok := h.threads i
  rw [hthread] at hok
  obtain ⟨hdone, p, value, rfl, helem, hp⟩ := hok
  obtain ⟨slot, hslot, -, -, -, hfrom, hto⟩ := h.holds_slot hp
  have hindex := h.step_slot hslot
  refine h.advances_setStamp p (stampOf cap (2 ^ k) p + 1) .full (a := .inserted α force) hp rfl ?_ hdone
    (h.not_refilling (by simp [hthread])) (by rw [hthread]; rfl) rfl rfl (fun old hold => ?_) ⟨rfl, hfrom, hto⟩ (fun hfree => by cases hfree) fun _ => helem.symm
  · simp [hthread, ArrayQueue.step, hindex, Answer.inserted]
  · rw [hold.1]
    exact Nat.le_succ _

theorem checkHead (h : Inv cap k s f g) (hstamps : stampOf cap (2 ^ k) (g.elems.length + 2 * cap) < 2 ^ 64) {value : α} {tail : Nat}
    (hthread : s.threads i = .checkHead value tail) : Advances cap k s f g i spurious := by
  have hok := h.threads i
  rw [hthread] at hok
  obtain ⟨hcalls, p, hp, rfl⟩ := hok
  have hfrom : (s.threads i).claim = none := by rw [hthread]; rfl
  by_cases hfull : wrappingAdd s.queue.head s.queue.oneLap = stampOf cap (2 ^ k) p
  · obtain ⟨seen, hcalled⟩ := hcalls
    refine h.advances_answer (a := .pushed (some value)) ?_ hfrom (.refuse hcalled ?_)
    · simp [hthread, ArrayQueue.step, hfull]
    · have hle := h.le
      have hroom := h.room
      have hlength := h.length_items
      rw [h.head, h.shaped.add_oneLap (h.stamp_lt hstamps (by omega))] at hfull
      have := h.stamp_inj hfull
      omega
  · refine h.advances (t := .loadTail value false) ?_ hfrom hcalls
    simp [hthread, ArrayQueue.step, hfull]

theorem takeHead (h : Inv cap k s f g) (hstamps : stampOf cap (2 ^ k) (g.elems.length + 2 * cap) < 2 ^ 64) {value : α} {tail : Nat}
    (hthread : s.threads i = .takeHead value tail) : Advances cap k s f g i spurious := by
  have hok := h.threads i
  rw [hthread] at hok
  obtain ⟨hcalls, p, hp, rfl, hr⟩ := hok
  have hfrom : (s.threads i).claim = none := by rw [hthread]; rfl
  have hsub := h.shaped.sub_oneLap (h.stamp_lt hstamps (p := p + cap) (by omega))
  by_cases hmove : s.queue.head = wrappingSub (stampOf cap (2 ^ k) (p + cap)) s.queue.oneLap ∧ spurious = false
  · obtain rfl := h.stamp_inj (h.head.symm.trans (hmove.1.trans hsub))
    obtain ⟨old, helem, hholds, hlt, hitems⟩ := h.slot_of_head hr
    obtain ⟨seen, hcalled⟩ := hcalls
    have hpos := h.shaped.pos
    have htail : g.elems.length = g.head + cap := le_antisymm h.room hp
    have hlength := h.length_items
    have hnone (j : ι) : f.refilling ≠ some j := by
      intro hj
      obtain ⟨value, tail, hthread⟩ := h.refilling j hj
      have hok := h.threads j
      rw [hthread] at hok
      obtain ⟨-, -, old, -, hforcing⟩ := hok
      obtain ⟨-, -, -, -, -, -, -, -, hroom⟩ := h.holds_slot hforcing
      omega
    have hnext : wrappingSub (s.queue.next (stampOf cap (2 ^ k) (g.head + cap))) s.queue.oneLap = stampOf cap (2 ^ k) (g.head + 1) := by
      have hroom := h.stamp_lt hstamps (p := g.head + 1 + cap) (by omega)
      rw [h.shaped.next_stampOf (by rwa [Nat.add_right_comm]), Nat.add_right_comm, h.shaped.sub_oneLap hroom]
    refine h.advances_take (.forcing i) (p := g.head + cap) (t := .storeTail value (stampOf cap (2 ^ k) (g.head + cap))) hholds hlt ?_
      (.evict hcalled (Option.eq_none_iff_forall_ne_some.2 hnone) hitems (by omega)) rfl (fun j hji => Fifo.pending_put_of_ne hji)
      Fifo.pending_put_self (by simp) (fun j _ hj => absurd hj (hnone j)) (fun j hj => ?_) (Nat.add_mod_right _ _) rfl
      hfrom rfl ?_ fun g' helems hheld => ?_
    · simp [hthread, ArrayQueue.step, hmove.1, hmove.2, hnext]
    · exact .inr ⟨(Option.some.inj hj).symm, _, _, rfl⟩
    · refine ⟨?_, Nat.le_add_left _ _, by omega, htail.ge, by omega⟩
      rw [stampOf_add_cap hpos, Nat.add_right_comm]
    · rw [← htail, ← helems] at hheld ⊢
      exact ⟨rfl, rfl, old, Fifo.pending_put_self, hheld⟩
  · refine h.advances (t := .loadTail value true) ?_ hfrom hcalls
    simp [hthread, ArrayQueue.step, hmove]

theorem storeTail (h : Inv cap k s f g) (hstamps : stampOf cap (2 ^ k) (g.elems.length + 2 * cap) < 2 ^ 64) {value : α} {tail : Nat}
    (hthread : s.threads i = .storeTail value tail) : Advances cap k s f g i spurious := by
  have hok := h.threads i
  rw [hthread] at hok
  obtain ⟨hrefilling, rfl, old, hpending, hp⟩ := hok
  obtain ⟨-, -, -, -, -, -, hle, -, hroom⟩ := h.holds_slot hp
  have hlength := h.length_items
  refine h.advances_add hstamps (.forcing i) (a := .forced (some old)) (t := .swap value (stampOf cap (2 ^ k) g.elems.length)) hp
    (fun j hj => (Option.some.inj hj).symm) hroom ?_ (.refill hpending hrefilling (by omega)) rfl
    (fun j hji => Fifo.pending_put_of_ne hji) Fifo.pending_put_self (fun j hj => ?_) rfl rfl (.inr (by rw [hthread]; rfl)) rfl (fun stamp hfits => ?_)
    fun g' helem hheld => ⟨_, old, Fifo.pending_put_self, rfl, helem, hheld⟩
  · simp [hthread, ArrayQueue.step]
  · rw [hrefilling] at hj
    exact (Option.some.inj hj).symm
  · obtain ⟨hstamp, hcap, hfrom, -, hto⟩ := hfits
    exact ⟨hstamp, hcap, hfrom, Nat.le_succ _, hto⟩

theorem swap (h : Inv cap k s f g) {value : α} {tail : Nat} (hthread : s.threads i = .swap value tail) :
    Advances cap k s f g i spurious := by
  have hok := h.threads i
  rw [hthread] at hok
  obtain ⟨p, old, hdone, rfl, helem, hp⟩ := hok
  obtain ⟨slot, hslot, hvalue, -⟩ := h.holds_slot hp
  have hindex := h.step_slot hslot
  refine h.advances_setValue (some value) (t := .republish (stampOf cap (2 ^ k) p) old) hp rfl ?_
    (h.not_refilling (by simp [hthread])) (by rw [hthread]; rfl) rfl fun b hb => ⟨hdone, p, value, rfl, helem, hb⟩
  simp [hthread, ArrayQueue.step, hindex, hvalue]

theorem republish (h : Inv cap k s f g) {tail : Nat} {old : α} (hthread : s.threads i = .republish tail old) :
    Advances cap k s f g i spurious := by
  have hok := h.threads i
  rw [hthread] at hok
  obtain ⟨hdone, p, value, rfl, helem, hp⟩ := hok
  obtain ⟨slot, hslot, -, -, -, -, hfrom, -, -⟩ := h.holds_slot hp
  have hindex := h.step_slot hslot
  have hto := (List.getElem?_eq_some_iff.1 helem).1
  refine h.advances_setStamp p (stampOf cap (2 ^ k) p + 1) .full (a := .forced (some old)) hp rfl ?_ hdone
    (h.not_refilling (by simp [hthread])) (by rw [hthread]; rfl) rfl rfl (fun old hold => ?_) ⟨rfl, hfrom, hto⟩ (fun hfree => by cases hfree) fun _ => helem.symm
  · simp [hthread, ArrayQueue.step, hindex]
  · rw [← hold.1]
    exact Nat.le_add_right _ _

theorem loadFront (h : Inv cap k s f g) {head : Nat} (hthread : s.threads i = .loadFront head) : Advances cap k s f g i spurious := by
  have hok := h.threads i
  rw [hthread] at hok
  obtain ⟨hcalls, p, hp, rfl⟩ := hok
  have hfrom : (s.threads i).claim = none := by rw [hthread]; rfl
  obtain ⟨slot, hslot⟩ := h.shaped.getElem?_mod p
  have hindex := h.step_slot hslot
  by_cases hfull : stampOf cap (2 ^ k) p + 1 = slot.stamp
  · refine h.advances (t := .moveHead (stampOf cap (2 ^ k) p)) ?_ hfrom ⟨hcalls, p, hp, rfl, slot, hslot, hfull.le⟩
    rw [hthread, ArrayQueue.step, hindex]
    exact if_pos hfull
  · by_cases hfree : slot.stamp = stampOf cap (2 ^ k) p
    · refine h.advances (t := .checkTail (stampOf cap (2 ^ k) p)) ?_ hfrom ⟨hcalls, p, hp, rfl⟩
      rw [hthread, ArrayQueue.step, hindex]
      exact (if_neg hfull).trans (if_pos hfree)
    · refine h.advances (t := .loadHead) ?_ hfrom hcalls
      rw [hthread, ArrayQueue.step, hindex]
      exact (if_neg hfull).trans (if_neg hfree)

theorem moveHead (h : Inv cap k s f g) (hstamps : stampOf cap (2 ^ k) (g.elems.length + 2 * cap) < 2 ^ 64) {head : Nat}
    (hthread : s.threads i = .moveHead head) : Advances cap k s f g i spurious := by
  have hok := h.threads i
  rw [hthread] at hok
  obtain ⟨hcalls, p, hp, rfl, hr⟩ := hok
  have hfrom : (s.threads i).claim = none := by rw [hthread]; rfl
  by_cases hmove : s.queue.head = stampOf cap (2 ^ k) p ∧ spurious = false
  · obtain rfl := h.stamp_inj (h.head.symm.trans hmove.1)
    obtain ⟨value, helem, hholds, hlt, hitems⟩ := h.slot_of_head hr
    obtain ⟨seen, hcalled⟩ := hcalls
    have hpos := h.shaped.pos
    have hnext := h.shaped.next_stampOf (h.stamp_lt hstamps (p := g.head + 1) (by omega))
    refine h.advances_take (.reading i) (p := g.head) (t := .read (stampOf cap (2 ^ k) g.head)) hholds hlt ?_ (.pop hcalled hitems) rfl (fun j hji => Fifo.pending_put_of_ne hji) Fifo.pending_put_self (by simp)
      (fun j _ hj => hj) (fun j hj => .inl ⟨?_, hj⟩) rfl rfl hfrom rfl ⟨rfl, Nat.lt_succ_self _, h.room⟩
      fun g' _ hheld => ⟨_, value, Fifo.pending_put_self, rfl, hheld⟩
    · simp [hthread, ArrayQueue.step, hmove.1, hmove.2, hnext]
    · rintro rfl
      exact h.not_refilling (by simp [hthread]) hj
  · refine h.advances (t := .loadFront s.queue.head) ?_ hfrom ⟨hcalls, _, le_rfl, h.head⟩
    simp [hthread, ArrayQueue.step, hmove]

theorem read (h : Inv cap k s f g) {head : Nat} (hthread : s.threads i = .read head) : Advances cap k s f g i spurious := by
  have hok := h.threads i
  rw [hthread] at hok
  obtain ⟨p, value, hdone, rfl, hp⟩ := hok
  obtain ⟨slot, hslot, hvalue, -⟩ := h.holds_slot hp
  have hindex := h.step_slot hslot
  refine h.advances_setValue none (t := .release (stampOf cap (2 ^ k) p) value) hp rfl ?_
    (h.not_refilling (by simp [hthread])) (by rw [hthread]; rfl) rfl fun b hb => ⟨hdone, p, rfl, hb⟩
  simp [hthread, ArrayQueue.step, hindex, hvalue]

theorem release (h : Inv cap k s f g) (hstamps : stampOf cap (2 ^ k) (g.elems.length + 2 * cap) < 2 ^ 64) {head : Nat} {value : α}
    (hthread : s.threads i = .release head value) : Advances cap k s f g i spurious := by
  have hok := h.threads i
  rw [hthread] at hok
  obtain ⟨hdone, p, rfl, hp⟩ := hok
  obtain ⟨slot, hslot, -, -, -, hlt, hroom⟩ := h.holds_slot hp
  have hindex := h.step_slot hslot
  have hle := h.le
  have hlap := h.shaped.add_oneLap (h.stamp_lt hstamps (p := p + cap) (by omega))
  refine h.advances_setStamp (p + cap) (stampOf cap (2 ^ k) (p + cap)) .free (a := .popped (some value)) hp
    rfl ?_ hdone (h.not_refilling (by simp [hthread])) (by rw [hthread]; rfl) rfl (Nat.add_mod_right _ _) (fun old hold => ?_) ⟨rfl, hroom, by omega⟩
    (fun _ => rfl) fun hfull => by cases hfull
  · simp [hthread, ArrayQueue.step, hindex, hlap]
  · have hpow := Nat.two_pow_pos k
    rw [hold.1, stampOf_add_cap h.shaped.pos]
    omega

theorem checkTail (h : Inv cap k s f g) {head : Nat} (hthread : s.threads i = .checkTail head) :
    Advances cap k s f g i spurious := by
  have hok := h.threads i
  rw [hthread] at hok
  obtain ⟨hcalls, p, hp, rfl⟩ := hok
  have hfrom : (s.threads i).claim = none := by rw [hthread]; rfl
  by_cases hempty : s.queue.tail = stampOf cap (2 ^ k) p
  · obtain ⟨seen, hcalled⟩ := hcalls
    refine h.advances_answer (a := .popped none) ?_ hfrom (.popEmpty hcalled ?_)
    · simp [hthread, ArrayQueue.step, hempty]
    · have := h.stamp_inj (h.tail.symm.trans hempty)
      rw [h.items]
      exact List.drop_of_length_le (by omega)
  · refine h.advances (t := .loadHead) ?_ hfrom hcalls
    simp [hthread, ArrayQueue.step, hempty]

theorem lenAgain (h : Inv cap k s f g) {tail head : Nat} (hthread : s.threads i = .lenAgain tail head) :
    Advances cap k s f g i spurious := by
  have hok := h.threads i
  rw [hthread] at hok
  obtain ⟨seen, hcalled, p, hp, r, rfl, rfl, hseen⟩ := hok
  have hfrom : (s.threads i).claim = none := by rw [hthread]; rfl
  by_cases hsame : s.queue.tail = stampOf cap (2 ^ k) p
  · obtain ⟨hle, hroom, hmem⟩ := hseen (h.stamp_inj (h.tail.symm.trans hsame))
    refine h.advances_answer (a := .length (p - r)) ?_ hfrom (.look hcalled hmem rfl)
    simp [hthread, ArrayQueue.step, hsame, h.shaped.between_stampOf hle hroom]
  · refine h.advances (t := .lenTail) ?_ hfrom ⟨seen, hcalled⟩
    simp [hthread, ArrayQueue.step, hsame]

theorem emptyTail (h : Inv cap k s f g) {head : Nat} (hthread : s.threads i = .emptyTail head) :
    Advances cap k s f g i spurious := by
  have hok := h.threads i
  rw [hthread] at hok
  obtain ⟨seen, hcalled, p, hp, rfl, hseen⟩ := hok
  have hfrom : (s.threads i).claim = none := by rw [hthread]; rfl
  have hlength := h.length_items
  have hequal : s.queue.tail = stampOf cap (2 ^ k) p ↔ g.elems.length = p := by
    rw [h.tail]
    exact ⟨h.stamp_inj, fun heq => by rw [heq]⟩
  -- a length that was seen since the call started, with this answer
  obtain ⟨n, hmem, hn⟩ : ∃ n ∈ seen, (g.elems.length = p ↔ n = 0) := by
    rcases hseen with heq | ⟨n, hmem, hn⟩
    · exact ⟨_, h.seen i _ _ hcalled, by omega⟩
    · by_cases heq : g.elems.length = p
      · exact ⟨_, h.seen i _ _ hcalled, by omega⟩
      · exact ⟨n, hmem, by omega⟩
  refine h.advances_answer (a := .empty (n = 0)) ?_ hfrom (.look hcalled hmem rfl)
  simp [hthread, ArrayQueue.step, hequal, hn]

theorem fullHead (h : Inv cap k s f g) (hstamps : stampOf cap (2 ^ k) (g.elems.length + 2 * cap) < 2 ^ 64) {tail : Nat}
    (hthread : s.threads i = .fullHead tail) : Advances cap k s f g i spurious := by
  have hok := h.threads i
  rw [hthread] at hok
  obtain ⟨seen, hcalled, p, hp, rfl, hseen⟩ := hok
  have hfrom : (s.threads i).claim = none := by rw [hthread]; rfl
  have hlength := h.length_items
  have hle := h.le
  have hroom := h.room
  have hequal : wrappingAdd s.queue.head s.queue.oneLap = stampOf cap (2 ^ k) p ↔ g.head + cap = p := by
    rw [h.head, h.shaped.add_oneLap (h.stamp_lt hstamps (by omega))]
    exact ⟨h.stamp_inj, fun heq => by rw [heq]⟩
  obtain ⟨n, hmem, hn⟩ : ∃ n ∈ seen, (g.head + cap = p ↔ n = cap) := by
    rcases hseen with heq | ⟨n, hmem, hn⟩
    · exact ⟨_, h.seen i _ _ hcalled, by omega⟩
    · by_cases heq : g.head + cap = p
      · exact ⟨_, h.seen i _ _ hcalled, by omega⟩
      · exact ⟨n, hmem, by omega⟩
  refine h.advances_answer (a := .full (n = cap)) ?_ hfrom (.look hcalled hmem rfl)
  simp [hthread, ArrayQueue.step, hequal, hn]

/-- Every access of every thread is defined, and the abstract queue follows. -/
theorem access (h : Inv cap k s f g) (hstamps : stampOf cap (2 ^ k) (g.elems.length + 2 * cap) < 2 ^ 64) (i : ι) (spurious : Bool) :
    Advances cap k s f g i spurious := by
  have hok := h.threads i
  cases hthread : s.threads i with
  | loadStamp => exact h.loadStamp hstamps hthread
  | moveTail => exact h.moveTail hstamps hthread
  | write => exact h.write hthread
  | publish => exact h.publish hthread
  | checkHead => exact h.checkHead hstamps hthread
  | takeHead => exact h.takeHead hstamps hthread
  | storeTail => exact h.storeTail hstamps hthread
  | swap => exact h.swap hthread
  | republish => exact h.republish hthread
  | loadFront => exact h.loadFront hthread
  | moveHead => exact h.moveHead hstamps hthread
  | read => exact h.read hthread
  | release => exact h.release hstamps hthread
  | checkTail => exact h.checkTail hthread
  | lenAgain => exact h.lenAgain hthread
  | emptyTail => exact h.emptyTail hthread
  | fullHead => exact h.fullHead hstamps hthread
  | idle | done answer =>
    rw [hthread] at hok
    exact h.advances (by rw [hthread]; rfl) (by rw [hthread]; rfl) hok
  | loadTail value force =>
    rw [hthread] at hok
    exact h.advances (t := .loadStamp value force s.queue.tail) (by rw [hthread]; rfl) (by rw [hthread]; rfl) ⟨hok, _, le_rfl, h.tail⟩
  | loadHead =>
    rw [hthread] at hok
    exact h.advances (t := .loadFront s.queue.head) (by rw [hthread]; rfl) (by rw [hthread]; rfl) ⟨hok, _, le_rfl, h.head⟩
  | lenTail =>
    rw [hthread] at hok
    exact h.advances (t := .lenHead s.queue.tail) (by rw [hthread]; rfl) (by rw [hthread]; rfl) ⟨hok, _, le_rfl, h.tail⟩
  | lenHead tail =>
    rw [hthread] at hok
    obtain ⟨⟨seen, hcalled⟩, p, hp, rfl⟩ := hok
    refine h.advances (t := .lenAgain (stampOf cap (2 ^ k) p) s.queue.head) (by rw [hthread]; rfl) (by rw [hthread]; rfl) ⟨seen, hcalled, p, hp, g.head, rfl, h.head, ?_⟩
    rintro rfl
    exact ⟨h.le, h.room, h.length_items ▸ h.seen i _ _ hcalled⟩
  | emptyHead =>
    rw [hthread] at hok
    obtain ⟨seen, hcalled⟩ := hok
    refine h.advances (t := .emptyTail s.queue.head) (by rw [hthread]; rfl) (by rw [hthread]; rfl) ⟨seen, hcalled, g.head, le_rfl, h.head, ?_⟩
    have hlength := h.length_items
    have hle := h.le
    rcases eq_or_ne f.items.length 0 with hempty | hne
    · exact .inl (by omega)
    · exact .inr ⟨_, h.seen i _ _ hcalled, hne⟩
  | fullTail =>
    rw [hthread] at hok
    obtain ⟨seen, hcalled⟩ := hok
    refine h.advances (t := .fullHead s.queue.tail) (by rw [hthread]; rfl) (by rw [hthread]; rfl) ⟨seen, hcalled, g.elems.length, le_rfl, h.tail, ?_⟩
    have hlength := h.length_items
    have hle := h.le
    rcases eq_or_ne f.items.length cap with hfull | hne
    · exact .inl (by omega)
    · exact .inr ⟨_, h.seen i _ _ hcalled, hne⟩

end Inv

end Queue
end BmlSys
