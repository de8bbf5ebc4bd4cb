import BmlSys.Lib.Lists
import BmlSys.Queue.Fifo
import BmlSys.Queue.Stamps

/-!
# The state of the bounded queue

The elements added are numbered, `Ghost` has all of them and the number that were taken, and for each slot the element it is for
and its use. A thread that writes or reads a value is the one that the slot's use names, and what a thread has loaded was true when
it loaded it: numbers and stamps only grow. `Inv` is what holds of a state and of the abstract queue it stands for.
-/

namespace BmlSys
namespace Queue
variable {ι α : Type} {cap lap k : Nat}

/-! ### Slots -/

/-- What a slot is used for, and by whom. -/
inductive Phase (ι : Type) where
  | free
  | writing (i : ι)
  | full
  | reading (i : ι)
  | forcing (i : ι)

namespace Phase

def owner : Phase ι → Option ι
  | writing i | reading i | forcing i => some i
  | free | full => none

/-- The stamp of a slot for element `p`, with `p` between the numbers of elements taken and added. -/
def Fits (cap lap head tail p stamp : Nat) : Phase ι → Prop
  | free => stamp = stampOf cap lap p ∧ tail ≤ p ∧ p < head + cap
  | writing _ => stamp = stampOf cap lap p ∧ head ≤ p ∧ p < tail
  | full => stamp = stampOf cap lap p + 1 ∧ head ≤ p ∧ p < tail
  | reading _ => stamp = stampOf cap lap p + 1 ∧ p < head ∧ tail ≤ p + cap
  | forcing _ => stamp + lap = stampOf cap lap p + 1 ∧ cap ≤ p ∧ head ≤ p ∧ p ≤ tail ∧ p < head + cap

section
variable {head tail p stamp : Nat} {phase : Phase ι}

/-- One more element, which goes to another slot. -/
theorem Fits.add (h : phase.Fits cap lap head tail p stamp) (hne : p % cap ≠ tail % cap) :
    phase.Fits cap lap head (tail + 1) p stamp := by
  have hp : p ≠ tail := fun heq => hne (by rw [heq])
  have hp' : p + cap ≠ tail := fun heq => hne (by rw [← heq, Nat.add_mod_right])
  cases phase <;> simp only [Fits] at h ⊢ <;> omega

/-- One element less, which was in another slot. -/
theorem Fits.take (h : phase.Fits cap lap head tail p stamp) (hne : p % cap ≠ head % cap) :
    phase.Fits cap lap (head + 1) tail p stamp := by
  have hp : p ≠ head := fun heq => hne (by rw [heq])
  cases phase <;> simp only [Fits] at h ⊢ <;> omega

/-- The slot of the next element, once its stamp says so, is free. -/
theorem Fits.of_tail (h : phase.Fits cap lap head tail p stamp) (hcap : 0 < cap) (hlap : cap < lap) (hle : head ≤ tail)
    (hslot : p % cap = tail % cap) (hstamp : stampOf cap lap tail ≤ stamp) : phase = free ∧ p = tail ∧ tail < head + cap := by
  have hearlier (hlt : p < tail) : p + cap ≤ tail ∧ stampOf cap lap p + lap ≤ stampOf cap lap tail := stampOf_lap hcap hslot hlt
  have hlater (hlt : tail < p) : tail + cap ≤ p ∧ stampOf cap lap tail + lap ≤ stampOf cap lap p :=
    stampOf_lap hcap hslot.symm hlt
  cases phase with
  | free =>
    obtain ⟨-, hfrom, hto⟩ := h
    rcases hfrom.lt_or_eq with hlt | rfl
    · have := (hlater hlt).1
      omega
    · exact ⟨rfl, rfl, hto⟩
  | writing i =>
    obtain ⟨rfl, -, hlt⟩ := h
    have := (hearlier hlt).2
    omega
  | full =>
    obtain ⟨rfl, -, hlt⟩ := h
    have := (hearlier hlt).2
    omega
  | reading i =>
    obtain ⟨rfl, hlt, -⟩ := h
    have := (hearlier (hlt.trans_le hle)).2
    omega
  | forcing i =>
    obtain ⟨hforced, -, -, hto, -⟩ := h
    have := (stampOf_strictMono hcap hlap).monotone hto
    omega

/-- The slot of the oldest element, once its stamp says so, is full. -/
theorem Fits.of_head (h : phase.Fits cap lap head tail p stamp) (hcap : 0 < cap) (hlap : cap < lap) (hle : head ≤ tail) (hroom : tail ≤ head + cap)
    (hslot : p % cap = head % cap) (hstamp : stampOf cap lap head + 1 ≤ stamp) : phase = full ∧ p = head := by
  have hlater (hlt : head < p) : head + cap ≤ p ∧ stampOf cap lap head + lap ≤ stampOf cap lap p :=
    stampOf_lap hcap hslot.symm hlt
  have hsame (hfrom : head ≤ p) (hto : p < head + cap) : p = head := by
    rcases hfrom.lt_or_eq with hlt | heq
    · have := (hlater hlt).1
      omega
    · exact heq.symm
  cases phase with
  | free =>
    obtain ⟨rfl, hfrom, hto⟩ := h
    rw [hsame (hle.trans hfrom) hto] at hstamp
    omega
  | writing i =>
    obtain ⟨rfl, hfrom, hto⟩ := h
    rw [hsame hfrom (hto.trans_le hroom)] at hstamp
    omega
  | full =>
    obtain ⟨-, hfrom, hto⟩ := h
    exact ⟨rfl, hsame hfrom (hto.trans_le hroom)⟩
  | reading i =>
    obtain ⟨rfl, hlt, -⟩ := h
    have hearlier : p + cap ≤ head ∧ stampOf cap lap p + lap ≤ stampOf cap lap head := stampOf_lap hcap hslot hlt
    omega
  | forcing i =>
    obtain ⟨hforced, -, hfrom, -, hto⟩ := h
    rw [hsame hfrom hto] at hforced
    omega

end
end Phase

/-- All elements added, how many of them are taken, and for each slot its element and its use. -/
structure Ghost (ι α : Type) where
  elems : List α
  head : Nat
  pos : Nat → Nat
  phase : Nat → Phase ι

namespace Ghost
variable (g : Ghost ι α)

def start (ι α : Type) : Ghost ι α := ⟨[], 0, id, fun _ => .free⟩

def use (x p : Nat) (phase : Phase ι) : Ghost ι α :=
  { g with pos := Function.update g.pos x p, phase := Function.update g.phase x phase }

def add (value : α) : Ghost ι α := { g with elems := g.elems ++ [value] }

def take : Ghost ι α := { g with head := g.head + 1 }

section
variable {x y p : Nat} {phase : Phase ι} {value : α}

@[simp] theorem elems_use : (g.use x p phase).elems = g.elems := rfl
@[simp] theorem head_use : (g.use x p phase).head = g.head := rfl
@[simp] theorem pos_use_self : (g.use x p phase).pos x = p := Function.update_self ..
@[simp] theorem phase_use_self : (g.use x p phase).phase x = phase := Function.update_self ..
theorem pos_use_of_ne (h : y ≠ x) : (g.use x p phase).pos y = g.pos y := Function.update_of_ne h ..
theorem phase_use_of_ne (h : y ≠ x) : (g.use x p phase).phase y = g.phase y := Function.update_of_ne h ..
@[simp] theorem elems_add : (g.add value).elems = g.elems ++ [value] := rfl
@[simp] theorem head_add : (g.add value).head = g.head := rfl
@[simp] theorem pos_add : (g.add value).pos = g.pos := rfl
@[simp] theorem phase_add : (g.add value).phase = g.phase := rfl
@[simp] theorem elems_take : g.take.elems = g.elems := rfl
@[simp] theorem head_take : g.take.head = g.head + 1 := rfl
@[simp] theorem pos_take : g.take.pos = g.pos := rfl
@[simp] theorem phase_take : g.take.phase = g.phase := rfl

end
end Ghost

structure SlotOk (cap lap : Nat) (g : Ghost ι α) (x : Nat) (slot : Slot α) : Prop where
  index : g.pos x % cap = x
  fits : (g.phase x).Fits cap lap g.head g.elems.length (g.pos x) slot.stamp
  free : g.phase x = .free → slot.value = none
  full : g.phase x = .full → slot.value = g.elems[g.pos x]?

namespace SlotOk
variable {g : Ghost ι α} {x y : Nat} {slot : Slot α}

theorem use_of_ne {p : Nat} {phase : Phase ι} (h : SlotOk cap lap g y slot) (hne : y ≠ x) :
    SlotOk cap lap (g.use x p phase) y slot := by
  constructor <;> simp only [g.pos_use_of_ne hne, g.phase_use_of_ne hne, g.elems_use, g.head_use]
  exacts [h.index, h.fits, h.free, h.full]

/-- A slot in a use of its own. -/
theorem used {p stamp : Nat} {value : Option α} {phase : Phase ι} (hslot : p % cap = x)
    (hfits : phase.Fits cap lap g.head g.elems.length p stamp) (hfree : phase = .free → value = none)
    (hfull : phase = .full → value = g.elems[p]?) : SlotOk cap lap (g.use x p phase) x ⟨stamp, value⟩ := by
  constructor <;> simp only [g.pos_use_self, g.phase_use_self, g.elems_use, g.head_use]
  exacts [hslot, hfits, hfree, hfull]

theorem add {value : α} (h : SlotOk cap lap g y slot) (hne : y ≠ g.elems.length % cap) : SlotOk cap lap (g.add value) y slot where
  index := h.index
  fits := by
    rw [g.elems_add, List.length_append]
    exact h.fits.add (by rw [h.index]; exact hne)
  free := h.free
  full hfull := by
    have hlt : g.pos y < g.elems.length := by
      have hfits := h.fits
      rw [show g.phase y = .full from hfull] at hfits
      exact hfits.2.2
    rw [h.full hfull, g.elems_add, g.pos_add, List.getElem?_append_left hlt]

theorem take (h : SlotOk cap lap g y slot) (hne : y ≠ g.head % cap) : SlotOk cap lap g.take y slot where
  index := h.index
  fits := h.fits.take (by rw [h.index]; exact hne)
  free := h.free
  full := h.full

end SlotOk

/-! ### Threads -/

/-- The call of a thread in `push_or_else`, and its answer where the value has gone in. -/
def Call.insertion (value : α) (force : Bool) : Call α := if force then .forcePush value else .push value

def Answer.inserted (α : Type) (force : Bool) : Answer α := if force then .forced none else .pushed none

def Fifo.Calls (f : Fifo ι α) (i : ι) (c : Call α) : Prop := ∃ seen, f.pending i = .called c seen

/-- The slot of element `p` is for this element, in this use and with this value. -/
def Holds (cap : Nat) (buffer : List (Slot α)) (g : Ghost ι α) (p : Nat) (phase : Phase ι) (value : Option α) : Prop :=
  g.pos (p % cap) = p ∧ g.phase (p % cap) = phase ∧ ∃ slot, buffer[p % cap]? = some slot ∧ slot.value = value

theorem Holds.of_use {buffer : List (Slot α)} {g : Ghost ι α} {p x stamp : Nat} {phase : Phase ι} {value : Option α}
    (hslot : p % cap = x) (hb : buffer[x]? = some ⟨stamp, value⟩) : Holds cap buffer (g.use x p phase) p phase value := by
  subst hslot
  exact ⟨g.pos_use_self, g.phase_use_self, _, hb, rfl⟩

def Reached (cap : Nat) (buffer : List (Slot α)) (p stamp : Nat) : Prop := ∃ slot, buffer[p % cap]? = some slot ∧ stamp ≤ slot.stamp

theorem Status.mem_of_see {s : Status α} {n : Nat} {c : Call α} {seen : List Nat} (h : s.see n = .called c seen) : n ∈ seen := by
  cases s with
  | called c' seen' =>
    obtain ⟨-, rfl⟩ := Status.called.inj h
    exact List.mem_cons_self ..
  | _ => cases h

/-- What a thread knows before its next access. -/
def ThreadOk (cap lap : Nat) (buffer : List (Slot α)) (f : Fifo ι α) (g : Ghost ι α) (i : ι) : Thread α → Prop
  | .idle => f.pending i = .idle
  | .loadTail value force => f.Calls i (.insertion value force)
  | .loadStamp value force tail => f.Calls i (.insertion value force) ∧ ∃ p ≤ g.elems.length, tail = stampOf cap lap p
  | .moveTail value force tail => f.Calls i (.insertion value force) ∧
      ∃ p ≤ g.elems.length, tail = stampOf cap lap p ∧ Reached cap buffer p (stampOf cap lap p)
  | .write value force tail => f.pending i = .done (.inserted α force) ∧
      ∃ p, tail = stampOf cap lap p ∧ g.elems[p]? = some value ∧ Holds cap buffer g p (.writing i) none
  | .publish force tail => f.pending i = .done (.inserted α force) ∧
      ∃ p value, tail = stampOf cap lap p ∧ g.elems[p]? = some value ∧ Holds cap buffer g p (.writing i) (some value)
  | .checkHead value tail => f.Calls i (.push value) ∧ ∃ p ≤ g.elems.length, tail = stampOf cap lap p
  | .takeHead value tail => f.Calls i (.forcePush value) ∧
      ∃ p, p + cap ≤ g.elems.length ∧ tail = stampOf cap lap (p + cap) ∧ Reached cap buffer p (stampOf cap lap p + 1)
  | .storeTail value tail => f.refilling = some i ∧ tail = stampOf cap lap g.elems.length ∧
      ∃ old, f.pending i = .evicted value old ∧ Holds cap buffer g g.elems.length (.forcing i) (some old)
  | .swap value tail => ∃ p old, f.pending i = .done (.forced (some old)) ∧ tail = stampOf cap lap p ∧ g.elems[p]? = some value ∧
      Holds cap buffer g p (.forcing i) (some old)
  | .republish tail old => f.pending i = .done (.forced (some old)) ∧
      ∃ p value, tail = stampOf cap lap p ∧ g.elems[p]? = some value ∧ Holds cap buffer g p (.forcing i) (some value)
  | .loadHead => f.Calls i .pop
  | .loadFront head => f.Calls i .pop ∧ ∃ p ≤ g.head, head = stampOf cap lap p
  | .moveHead head => f.Calls i .pop ∧ ∃ p ≤ g.head, head = stampOf cap lap p ∧ Reached cap buffer p (stampOf cap lap p + 1)
  | .read head => ∃ p value, f.pending i = .done (.popped (some value)) ∧ head = stampOf cap lap p ∧
      Holds cap buffer g p (.reading i) (some value)
  | .release head value => f.pending i = .done (.popped (some value)) ∧
      ∃ p, head = stampOf cap lap p ∧ Holds cap buffer g p (.reading i) none
  | .checkTail head => f.Calls i .pop ∧ ∃ p ≤ g.head, head = stampOf cap lap p
  | .lenTail => f.Calls i .len
  | .lenHead tail => f.Calls i .len ∧ ∃ p ≤ g.elems.length, tail = stampOf cap lap p
  | .lenAgain tail head => ∃ seen, f.pending i = .called .len seen ∧ ∃ p ≤ g.elems.length, ∃ r, tail = stampOf cap lap p ∧
      head = stampOf cap lap r ∧ (g.elems.length = p → r ≤ p ∧ p ≤ r + cap ∧ p - r ∈ seen)
  | .emptyHead => f.Calls i .isEmpty
  | .emptyTail head => ∃ seen, f.pending i = .called .isEmpty seen ∧ ∃ p ≤ g.head, head = stampOf cap lap p ∧
      (g.elems.length = p ∨ ∃ n ∈ seen, n ≠ 0)
  | .fullTail => f.Calls i .isFull
  | .fullHead tail => ∃ seen, f.pending i = .called .isFull seen ∧ ∃ p ≤ g.elems.length, tail = stampOf cap lap p ∧
      (g.head + cap = p ∨ ∃ n ∈ seen, n ≠ cap)
  | .done answer => f.pending i = .done answer

/-- What another thread's step leaves of all this. -/
structure Kept (cap : Nat) (b b' : List (Slot α)) (f f' : Fifo ι α) (g g' : Ghost ι α) (j : ι) : Prop where
  head : g.head ≤ g'.head
  elems : g.elems <+: g'.elems
  stamps : ∀ (x : Nat) (slot : Slot α), b[x]? = some slot → ∃ slot', b'[x]? = some slot' ∧ slot.stamp ≤ slot'.stamp
  own : ∀ x : Nat, (g.phase x).owner = some j → b'[x]? = b[x]? ∧ g'.phase x = g.phase x ∧ g'.pos x = g.pos x
  refilling : f.refilling = some j → f'.refilling = some j ∧ g'.elems = g.elems
  still : (∀ c seen, f.pending j ≠ .called c seen) → f'.pending j = f.pending j
  called : ∀ c seen, f.pending j = .called c seen → ∃ seen', f'.pending j = .called c seen' ∧ seen ⊆ seen' ∧
    (g'.elems = g.elems ∨ ∃ n ∈ seen', n ≠ 0) ∧ (g'.head = g.head ∨ ∃ n ∈ seen', n ≠ cap)

namespace Kept
variable {b b' : List (Slot α)} {f f' : Fifo ι α} {g g' : Ghost ι α} {j : ι}

theorem length_le (h : Kept cap b b' f f' g g' j) : g.elems.length ≤ g'.elems.length := h.elems.length_le

theorem getElem? (h : Kept cap b b' f f' g g' j) {p : Nat} {value : α} (hp : g.elems[p]? = some value) :
    g'.elems[p]? = some value := List.getElem?_of_prefix h.elems hp

theorem calls (h : Kept cap b b' f f' g g' j) {c : Call α} (hc : f.Calls j c) : f'.Calls j c := by
  obtain ⟨seen, hc⟩ := hc
  obtain ⟨seen', hc', -⟩ := h.called c seen hc
  exact ⟨seen', hc'⟩

theorem pending (h : Kept cap b b' f f' g g' j) {status : Status α} (hs : f.pending j = status)
    (hne : ∀ c seen, status ≠ .called c seen) : f'.pending j = status := by
  rw [h.still fun c seen heq => hne c seen (hs.symm.trans heq), hs]

theorem reached (h : Kept cap b b' f f' g g' j) {p stamp : Nat} (hr : Reached cap b p stamp) : Reached cap b' p stamp := by
  obtain ⟨slot, hslot, hle⟩ := hr
  obtain ⟨slot', hslot', hle'⟩ := h.stamps _ slot hslot
  exact ⟨slot', hslot', hle.trans hle'⟩

theorem holds (h : Kept cap b b' f f' g g' j) {p : Nat} {phase : Phase ι} {value : Option α} (hp : Holds cap b g p phase value)
    (howner : phase.owner = some j) : Holds cap b' g' p phase value := by
  obtain ⟨hpos, hphase, slot, hslot, hvalue⟩ := hp
  obtain ⟨hb, hphase', hpos'⟩ := h.own (p % cap) (by rw [hphase]; exact howner)
  exact ⟨hpos'.trans hpos, hphase'.trans hphase, slot, hb.trans hslot, hvalue⟩

end Kept

/-- A thread knows what it knew after another thread's step. -/
theorem ThreadOk.kept {b b' : List (Slot α)} {f f' : Fifo ι α} {g g' : Ghost ι α} {j : ι} {t : Thread α}
    (h : ThreadOk cap lap b f g j t) (hk : Kept cap b b' f f' g g' j) : ThreadOk cap lap b' f' g' j t := by
  have hlen := hk.length_le
  cases t with
  | idle => exact hk.pending h nofun
  | done answer => exact hk.pending h nofun
  | loadTail | loadHead | lenTail | emptyHead | fullTail => exact hk.calls h
  | loadStamp | checkHead | lenHead =>
    obtain ⟨hc, p, hp, rfl⟩ := h
    exact ⟨hk.calls hc, p, hp.trans hlen, rfl⟩
  | loadFront | checkTail =>
    obtain ⟨hc, p, hp, rfl⟩ := h
    exact ⟨hk.calls hc, p, hp.trans hk.head, rfl⟩
  | moveTail =>
    obtain ⟨hc, p, hp, rfl, hr⟩ := h
    exact ⟨hk.calls hc, p, hp.trans hlen, rfl, hk.reached hr⟩
  | moveHead =>
    obtain ⟨hc, p, hp, rfl, hr⟩ := h
    exact ⟨hk.calls hc, p, hp.trans hk.head, rfl, hk.reached hr⟩
  | takeHead =>
    obtain ⟨hc, p, hp, rfl, hr⟩ := h
    exact ⟨hk.calls hc, p, hp.trans hlen, rfl, hk.reached hr⟩
  | write =>
    obtain ⟨hdone, p, rfl, hp, hr⟩ := h
    exact ⟨hk.pending hdone nofun, p, rfl, hk.getElem? hp, hk.holds hr rfl⟩
  | publish =>
    obtain ⟨hdone, p, value, rfl, hp, hr⟩ := h
    exact ⟨hk.pending hdone nofun, p, value, rfl, hk.getElem? hp, hk.holds hr rfl⟩
  | storeTail =>
    obtain ⟨hrefilling, rfl, old, hpending, hr⟩ := h
    obtain ⟨hrefilling', helems⟩ := hk.refilling hrefilling
    refine ⟨hrefilling', by rw [helems], old, hk.pending hpending nofun, ?_⟩
    rw [helems]
    exact hk.holds hr rfl
  | swap =>
    obtain ⟨p, old, hdone, rfl, hp, hr⟩ := h
    exact ⟨p, old, hk.pending hdone nofun, rfl, hk.getElem? hp, hk.holds hr rfl⟩
  | republish =>
    obtain ⟨hdone, p, value, rfl, hp, hr⟩ := h
    exact ⟨hk.pending hdone nofun, p, value, rfl, hk.getElem? hp, hk.holds hr rfl⟩
  | read =>
    obtain ⟨p, value, hdone, rfl, hr⟩ := h
    exact ⟨p, value, hk.pending hdone nofun, rfl, hk.holds hr rfl⟩
  | release =>
    obtain ⟨hdone, p, rfl, hr⟩ := h
    exact ⟨hk.pending hdone nofun, p, rfl, hk.holds hr rfl⟩
  | lenAgain =>
    obtain ⟨seen, hc, p, hp, r, rfl, rfl, hseen⟩ := h
    obtain ⟨seen', hc', hsub, -⟩ := hk.called _ _ hc
    refine ⟨seen', hc', p, hp.trans hlen, r, rfl, rfl, fun heq => ?_⟩
    obtain ⟨hle, hroom, hmem⟩ := hseen (by omega)
    exact ⟨hle, hroom, hsub hmem⟩
  | emptyTail =>
    obtain ⟨seen, hc, p, hp, rfl, hseen⟩ := h
    obtain ⟨seen', hc', hsub, hempty, -⟩ := hk.called _ _ hc
    refine ⟨seen', hc', p, hp.trans hk.head, rfl, ?_⟩
    rcases hseen with heq | ⟨n, hmem, hn⟩
    · rcases hempty with helems | hmem
      · exact .inl (by rw [helems]; exact heq)
      · exact .inr hmem
    · exact .inr ⟨n, hsub hmem, hn⟩
  | fullHead =>
    obtain ⟨seen, hc, p, hp, rfl, hseen⟩ := h
    obtain ⟨seen', hc', hsub, -, hfull⟩ := hk.called _ _ hc
    refine ⟨seen', hc', p, hp.trans hlen, rfl, ?_⟩
    rcases hseen with heq | ⟨n, hmem, hn⟩
    · rcases hfull with hhead | hmem
      · exact .inl (by rw [hhead]; exact heq)
      · exact .inr hmem
    · exact .inr ⟨n, hsub hmem, hn⟩

/-! ### The slot that a step changes -/

/-- A step of thread `i` that changes at most the slot `x`, which no other thread uses. -/
structure Touch (i : ι) (x : Nat) (b b' : List (Slot α)) (g g' : Ghost ι α) : Prop where
  head : g.head ≤ g'.head
  elems : g.elems <+: g'.elems
  other : ∀ y : Nat, y ≠ x → b'[y]? = b[y]? ∧ g'.phase y = g.phase y ∧ g'.pos y = g.pos y
  stamp : ∀ slot : Slot α, b[x]? = some slot → ∃ slot' : Slot α, b'[x]? = some slot' ∧ slot.stamp ≤ slot'.stamp
  owner : ∀ j, (g.phase x).owner = some j → j = i

namespace Touch
variable {i j : ι} {x n : Nat} {b b' : List (Slot α)} {g g' : Ghost ι α} {f f' : Fifo ι α}

theorem stamps (h : Touch i x b b' g g') (y : Nat) (slot : Slot α) (hy : b[y]? = some slot) :
    ∃ slot', b'[y]? = some slot' ∧ slot.stamp ≤ slot'.stamp := by
  by_cases hyx : y = x
  · subst hyx
    exact h.stamp slot hy
  · exact ⟨slot, (h.other y hyx).1.trans hy, le_rfl⟩

theorem own (h : Touch i x b b' g g') (hij : j ≠ i) (y : Nat) (hy : (g.phase y).owner = some j) :
    b'[y]? = b[y]? ∧ g'.phase y = g.phase y ∧ g'.pos y = g.pos y := by
  refine h.other y ?_
  rintro rfl
  exact hij (h.owner j hy)

/-- The abstract queue is as before, up to the call of the thread itself. -/
theorem kept (h : Touch i x b b' g g') (hij : j ≠ i) (helems : g'.elems = g.elems) (hhead : g'.head = g.head)
    (hrefilling : f'.refilling = f.refilling) (hpending : f'.pending j = f.pending j) : Kept cap b b' f f' g g' j where
  head := h.head
  elems := h.elems
  stamps := h.stamps
  own := h.own hij
  refilling hj := ⟨hrefilling.trans hj, helems⟩
  still _ := hpending
  called _ seen hc := ⟨seen, hpending.trans hc, fun _ hn => hn, .inl helems, .inl hhead⟩

/-- The abstract queue has another length. -/
theorem kept_change (h : Touch i x b b' g g') (hij : j ≠ i) (hpending : f'.pending j = (f.pending j).see n)
    (hrefilling : f.refilling = some j → f'.refilling = some j ∧ g'.elems = g.elems) (hempty : g'.elems = g.elems ∨ n ≠ 0)
    (hfull : g'.head = g.head ∨ n ≠ cap) : Kept cap b b' f f' g g' j where
  head := h.head
  elems := h.elems
  stamps := h.stamps
  own := h.own hij
  refilling := hrefilling
  still hstill := by
    rw [hpending]
    cases hs : f.pending j with
    | called c seen => exact absurd hs (hstill c seen)
    | _ => rfl
  called c seen hc := by
    have hmem : n ∈ n :: seen := List.mem_cons_self ..
    rw [hc] at hpending
    exact ⟨n :: seen, hpending, List.subset_cons_self .., hempty.imp_right fun hn => ⟨n, hmem, hn⟩,
      hfull.imp_right fun hn => ⟨n, hmem, hn⟩⟩

end Touch

/-! ### The invariant -/

structure Inv (cap k : Nat) (s : System ι α) (f : Fifo ι α) (g : Ghost ι α) : Prop where
  shaped : s.queue.Shaped cap k
  head : s.queue.head = stampOf cap (2 ^ k) g.head
  tail : s.queue.tail = stampOf cap (2 ^ k) g.elems.length
  items : f.items = g.elems.drop g.head
  le : g.head ≤ g.elems.length
  room : g.elems.length ≤ g.head + cap
  slots : ∀ (x : Nat) (slot : Slot α), s.queue.buffer[x]? = some slot → SlotOk cap (2 ^ k) g x slot
  threads : ∀ i, ThreadOk cap (2 ^ k) s.queue.buffer f g i (s.threads i)
  seen : ∀ i c seen, f.pending i = .called c seen → f.items.length ∈ seen
  refilling : ∀ i, f.refilling = some i → ∃ value tail, s.threads i = .storeTail value tail
  owned : ∀ (x : Nat) (i : ι), (g.phase x).owner = some i → ∃ p, p % cap = x ∧ (s.threads i).claim = some (stampOf cap (2 ^ k) p)

namespace Inv
variable {s : System ι α} {f : Fifo ι α} {g : Ghost ι α} {i : ι}

theorem length_items (h : Inv cap k s f g) : f.items.length = g.elems.length - g.head := by
  rw [h.items, List.length_drop]

theorem stamp_lt (h : Inv cap k s f g) (hstamps : stampOf cap (2 ^ k) (g.elems.length + 2 * cap) < 2 ^ 64) {p : Nat}
    (hp : p ≤ g.elems.length + 2 * cap) : stampOf cap (2 ^ k) p < 2 ^ 64 :=
  ((stampOf_strictMono h.shaped.pos h.shaped.lt).monotone hp).trans_lt hstamps

theorem stamp_inj (h : Inv cap k s f g) {p r : Nat} (hp : stampOf cap (2 ^ k) p = stampOf cap (2 ^ k) r) : p = r :=
  (stampOf_strictMono h.shaped.pos h.shaped.lt).injective hp

/-- A thread uses only the slot that it claims. -/
theorem only (h : Inv cap k s f g) {p : Nat} (hclaim : (s.threads i).claim = none ∨ (s.threads i).claim = some (stampOf cap (2 ^ k) p))
    (y : Nat) (hy : (g.phase y).owner = some i) : y = p % cap := by
  obtain ⟨r, rfl, hr⟩ := h.owned y i hy
  rcases hclaim with hnone | hsome
  · rw [hnone] at hr
    cases hr
  · rw [h.stamp_inj (Option.some.inj (hsome.symm.trans hr))]

/-- The slot of a use. -/
theorem holds_slot (h : Inv cap k s f g) {p : Nat} {phase : Phase ι} {value : Option α}
    (hp : Holds cap s.queue.buffer g p phase value) : ∃ slot, s.queue.buffer[p % cap]? = some slot ∧ slot.value = value ∧
      SlotOk cap (2 ^ k) g (p % cap) slot ∧ phase.Fits cap (2 ^ k) g.head g.elems.length p slot.stamp := by
  obtain ⟨hpos, hphase, slot, hslot, hvalue⟩ := hp
  have hok := h.slots _ _ hslot
  have hfits := hok.fits
  rw [hpos, hphase] at hfits
  exact ⟨slot, hslot, hvalue, hok, hfits⟩

/-- The slot for the next element is free, once a thread saw its stamp. -/
theorem slot_of_tail (h : Inv cap k s f g) (hr : Reached cap s.queue.buffer g.elems.length (stampOf cap (2 ^ k) g.elems.length)) :
    g.phase (g.elems.length % cap) = .free ∧ Holds cap s.queue.buffer g g.elems.length .free none ∧
      g.elems.length < g.head + cap ∧ f.refilling = none := by
  obtain ⟨slot, hslot, hle⟩ := hr
  have hok := h.slots _ _ hslot
  obtain ⟨hphase, hpos, hroom⟩ := hok.fits.of_tail h.shaped.pos h.shaped.lt h.le hok.index hle
  refine ⟨hphase, ⟨hpos, hphase, slot, hslot, hok.free hphase⟩, hroom, ?_⟩
  cases hj : f.refilling with
  | none => rfl
  | some j =>
    obtain ⟨value, tail, hthread⟩ := h.refilling j hj
    have hok := h.threads j
    rw [hthread] at hok
    obtain ⟨-, -, old, -, -, hforcing, -⟩ := hok
    rw [hphase] at hforcing
    cases hforcing

/-- The slot of the oldest element is full, once a thread saw its stamp. -/
theorem slot_of_head (h : Inv cap k s f g) (hr : Reached cap s.queue.buffer g.head (stampOf cap (2 ^ k) g.head + 1)) :
    ∃ value, g.elems[g.head]? = some value ∧ Holds cap s.queue.buffer g g.head .full (some value) ∧ g.head < g.elems.length ∧
      f.items = value :: g.elems.drop (g.head + 1) := by
  obtain ⟨slot, hslot, hle⟩ := hr
  have hok := h.slots _ _ hslot
  obtain ⟨hphase, hpos⟩ := hok.fits.of_head h.shaped.pos h.shaped.lt h.le h.room hok.index hle
  have hfits := hok.fits
  rw [hphase, hpos] at hfits
  have hlt := hfits.2.2
  have hvalue := hok.full hphase
  rw [hpos, List.getElem?_eq_getElem hlt] at hvalue
  exact ⟨_, List.getElem?_eq_getElem hlt, ⟨hpos, hphase, slot, hslot, hvalue⟩, hlt, by
    rw [h.items, List.drop_eq_getElem_cons hlt]⟩

theorem not_refilling (h : Inv cap k s f g) (hfrom : ∀ value tail, s.threads i ≠ .storeTail value tail) : f.refilling ≠ some i := by
  intro hi
  obtain ⟨value, tail, hthread⟩ := h.refilling i hi
  exact hfrom value tail hthread

theorem step_slot (h : Inv cap k s f g) {p : Nat} {slot : Slot α} (hslot : s.queue.buffer[p % cap]? = some slot) :
    s.queue.buffer[s.queue.index (stampOf cap (2 ^ k) p)]? = some slot := by
  rw [h.shaped.index_stampOf]
  exact hslot

/-- No stamp of a slot is near the end. -/
theorem slot_room (h : Inv cap k s f g) (hstamps : stampOf cap (2 ^ k) (g.elems.length + 2 * cap) < 2 ^ 64) {x : Nat} {slot : Slot α}
    (hslot : s.queue.buffer[x]? = some slot) : slot.stamp + 2 ^ k < 2 ^ 64 := by
  have hok := h.slots x slot hslot
  have hle := h.le
  have hroom := h.room
  have hpos := h.shaped.pos
  have hlap := Nat.two_pow_pos k
  have hbound {p : Nat} (hp : p ≤ g.elems.length + cap) : stampOf cap (2 ^ k) p + 2 ^ k < 2 ^ 64 := by
    rw [← stampOf_add_cap hpos]
    exact h.stamp_lt hstamps (by omega)
  have hnext := stampOf_lt_succ (p := g.pos x) hpos h.shaped.lt
  have hfits := hok.fits
  cases hphase : g.phase x with
  | free =>
    rw [hphase] at hfits
    obtain ⟨hstamp, -, hlt⟩ := hfits
    rw [hstamp]
    exact hbound (by omega)
  | writing j =>
    rw [hphase] at hfits
    obtain ⟨hstamp, -, hlt⟩ := hfits
    rw [hstamp]
    exact hbound (by omega)
  | full =>
    rw [hphase] at hfits
    obtain ⟨hstamp, -, hlt⟩ := hfits
    have := hbound (p := g.pos x + 1) (by omega)
    omega
  | reading j =>
    rw [hphase] at hfits
    obtain ⟨hstamp, hlt, -⟩ := hfits
    have := hbound (p := g.pos x + 1) (by omega)
    omega
  | forcing j =>
    rw [hphase] at hfits
    obtain ⟨hstamp, -, -, hlt, -⟩ := hfits
    have := hbound (p := g.pos x + 1) (by omega)
    omega

/-- A thread that accesses a value has its slot for itself. -/
theorem owner_of_touched (h : Inv cap k s f g) {i : ι} {x : Nat} (hx : (s.threads i).touched s.queue = some x) :
    (g.phase x).owner = some i := by
  have hok := h.threads i
  cases hthread : s.threads i with
  | write value force tail =>
    rw [hthread] at hok hx
    obtain ⟨-, p, rfl, -, -, hphase, -⟩ := hok
    obtain rfl := Option.some.inj hx
    rw [h.shaped.index_stampOf, hphase]
    rfl
  | swap value tail =>
    rw [hthread] at hok hx
    obtain ⟨p, old, -, rfl, -, -, hphase, -⟩ := hok
    obtain rfl := Option.some.inj hx
    rw [h.shaped.index_stampOf, hphase]
    rfl
  | read head =>
    rw [hthread] at hok hx
    obtain ⟨p, value, -, rfl, -, hphase, -⟩ := hok
    obtain rfl := Option.some.inj hx
    rw [h.shaped.index_stampOf, hphase]
    rfl
  | _ =>
    rw [hthread] at hx
    cases hx

/-! ### Without calls under way -/

/-- Without calls under way, the slots between the head and the tail are full and the others free. -/
theorem slot_idle (h : Inv cap k s f g) (hidle : ∀ i, s.threads i = .idle) {p : Nat} (hfrom : g.head ≤ p) (hto : p < g.head + cap) :
    (p < g.elems.length → Holds cap s.queue.buffer g p .full g.elems[p]?) ∧
      (g.elems.length ≤ p → Holds cap s.queue.buffer g p .free none) := by
  obtain ⟨slot, hslot⟩ := h.shaped.getElem?_mod p
  have hok := h.slots _ _ hslot
  have hfits := hok.fits
  have hroom := h.room
  have hle := h.le
  have hnone (j : ι) : (g.phase (p % cap)).owner ≠ some j := by
    intro hj
    obtain ⟨r, -, hclaim⟩ := h.owned _ _ hj
    rw [hidle j] at hclaim
    cases hclaim
  have hnear (hne : g.pos (p % cap) ≠ p) (hlo : g.head ≤ g.pos (p % cap)) : g.head + cap ≤ g.pos (p % cap) := by
    rcases Nat.lt_or_gt_of_ne hne with hlt | hgt
    · have := Nat.ModEq.add_le_of_lt hok.index hlt
      omega
    · have := Nat.ModEq.add_le_of_lt hok.index.symm hgt
      omega
  cases hphase : g.phase (p % cap) with
  | free =>
    rw [hphase] at hfits
    obtain ⟨-, hlo, hhi⟩ := hfits
    have hpos : g.pos (p % cap) = p := by
      by_contra hne
      have := hnear hne (by omega)
      omega
    refine ⟨fun hlt => by omega, fun _ => ⟨hpos, hphase, slot, hslot, hok.free hphase⟩⟩
  | full =>
    rw [hphase] at hfits
    obtain ⟨-, hlo, hhi⟩ := hfits
    have hpos : g.pos (p % cap) = p := by
      by_contra hne
      have := hnear hne hlo
      omega
    refine ⟨fun _ => ⟨hpos, hphase, slot, hslot, ?_⟩, fun hge => by omega⟩
    rw [hok.full hphase, hpos]
  | writing j | reading j | forcing j => exact absurd (by rw [hphase]; rfl) (hnone j)

theorem pending_idle (h : Inv cap k s f g) (hidle : ∀ i, s.threads i = .idle) (i : ι) : f.pending i = .idle := by
  have hok := h.threads i
  rw [hidle i] at hok
  exact hok

theorem refilling_idle (h : Inv cap k s f g) (hidle : ∀ i, s.threads i = .idle) (i : ι) : f.refilling ≠ some i := by
  intro hi
  obtain ⟨value, tail, hthread⟩ := h.refilling i hi
  rw [hidle i] at hthread
  cases hthread

end Inv

end Queue
end BmlSys
