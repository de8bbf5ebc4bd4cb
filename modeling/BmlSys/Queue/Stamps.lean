import BmlSys.Queue.ArrayQueue
import Mathlib

/-!
# Stamps

The elements pushed on a queue are counted, and the one with number `p` goes through the slot `p % cap` on the lap `p / cap`. Its
stamp is `stampOf cap lap p`, and below `2^64` the code's arithmetic on stamps is the arithmetic on numbers.
-/

namespace BmlSys
namespace Queue

def stampOf (cap oneLap p : Nat) : Nat := p / cap * oneLap + p % cap

section
variable {cap oneLap p q : Nat}

theorem stampOf_add_cap (hcap : 0 < cap) : stampOf cap oneLap (p + cap) = stampOf cap oneLap p + oneLap := by
  rw [stampOf, stampOf, Nat.add_div_right p hcap, Nat.add_mod_right]
  ring

theorem stampOf_add_mul (hcap : 0 < cap) (n : Nat) : stampOf cap oneLap (p + n * cap) = stampOf cap oneLap p + n * oneLap := by
  induction n with
  | zero => simp
  | succ n ih =>
    rw [Nat.succ_mul, ← Nat.add_assoc, stampOf_add_cap hcap, ih]
    ring

theorem stampOf_succ_of_lt (h : p % cap + 1 < cap) : stampOf cap oneLap (p + 1) = stampOf cap oneLap p + 1 := by
  have hp := Nat.div_add_mod p cap
  obtain ⟨hdiv, hmod⟩ := (Nat.div_mod_unique (a := p + 1) (b := cap) (c := p % cap + 1) (d := p / cap) (by omega)).2 ⟨by omega, h⟩
  rw [stampOf, stampOf, hdiv, hmod]
  ring

theorem stampOf_succ_of_eq (h : p % cap + 1 = cap) : stampOf cap oneLap (p + 1) = p / cap * oneLap + oneLap := by
  have hp := Nat.div_add_mod p cap
  obtain ⟨hdiv, hmod⟩ := (Nat.div_mod_unique (a := p + 1) (b := cap) (c := 0) (d := p / cap + 1) (by omega)).2
    ⟨by rw [Nat.mul_add]; omega, by omega⟩
  rw [stampOf, hdiv, hmod]
  ring

theorem stampOf_lt_succ (hcap : 0 < cap) (hlap : cap < oneLap) : stampOf cap oneLap p < stampOf cap oneLap (p + 1) := by
  have hlt := Nat.mod_lt p hcap
  rcases Nat.lt_or_ge (p % cap + 1) cap with h | h
  · rw [stampOf_succ_of_lt h]
    omega
  · rw [stampOf_succ_of_eq (by omega), stampOf]
    omega

theorem stampOf_strictMono (hcap : 0 < cap) (hlap : cap < oneLap) : StrictMono (stampOf cap oneLap) :=
  strictMono_nat_of_lt_succ fun _ => stampOf_lt_succ hcap hlap

/-- In one slot, a later element has a stamp of a later lap. -/
theorem stampOf_lap (hcap : 0 < cap) (hslot : p % cap = q % cap) (h : p < q) :
    p + cap ≤ q ∧ stampOf cap oneLap p + oneLap ≤ stampOf cap oneLap q := by
  obtain ⟨n, rfl⟩ : ∃ n, q = p + n * cap := by
    obtain ⟨n, hn⟩ := (Nat.modEq_iff_dvd' h.le).1 hslot
    exact ⟨n, by rw [Nat.mul_comm n cap, ← hn]; omega⟩
  have hn : 1 ≤ n := by
    rcases Nat.eq_zero_or_pos n with rfl | hn
    · simp at h
    · exact hn
  rw [stampOf_add_mul hcap]
  exact ⟨by nlinarith, by nlinarith⟩

end

namespace ArrayQueue
variable {α : Type} {cap k p : Nat}

/-- The capacity and the lap of a queue, and its number of slots. -/
structure Shaped (q : ArrayQueue α) (cap k : Nat) : Prop where
  cap_eq : q.cap = cap
  oneLap : q.oneLap = 2 ^ k
  length : q.buffer.length = cap
  pos : 0 < cap
  lt : cap < 2 ^ k
  word : k ≤ 64

namespace Shaped
variable {q : ArrayQueue α}

theorem index_stampOf (h : q.Shaped cap k) : q.index (stampOf cap (2 ^ k) p) = p % cap := by
  rw [index, h.oneLap, Nat.and_two_pow_sub_one_eq_mod, stampOf, Nat.mul_add_mod_self_right]
  exact Nat.mod_eq_of_lt ((Nat.mod_lt p h.pos).trans h.lt)

theorem testBit_mask {k i : Nat} (h : k ≤ 64) : (2 ^ 64 - 1 - (2 ^ k - 1)).testBit i = (decide (i < 64) && !decide (i < k)) := by
  have hle : 2 ^ k ≤ 2 ^ 64 := Nat.pow_le_pow_right (by decide) h
  have hmask : 2 ^ 64 - 1 - (2 ^ k - 1) = 2 ^ 64 - (2 ^ k - 1 + 1) := by omega
  rw [hmask, Nat.testBit_two_pow_sub_succ (by omega), Nat.testBit_two_pow_sub_one]

theorem lap_stampOf (h : q.Shaped cap k) (hp : stampOf cap (2 ^ k) p < 2 ^ 64) : q.lap (stampOf cap (2 ^ k) p) = p / cap * 2 ^ k := by
  have hlt : p % cap < 2 ^ k := (Nat.mod_lt p h.pos).trans h.lt
  rw [lap, h.oneLap]
  refine Nat.eq_of_testBit_eq fun i => ?_
  have hstamp : (stampOf cap (2 ^ k) p).testBit i = if i < k then (p % cap).testBit i else (p / cap).testBit (i - k) := by
    rw [stampOf, Nat.mul_comm, Nat.testBit_two_pow_mul_add _ hlt]
  rw [Nat.testBit_and, testBit_mask h.word, Nat.testBit_mul_two_pow, hstamp]
  rcases Nat.lt_or_ge i k with hi | hi
  · simp [hi]
  · rcases Nat.lt_or_ge i 64 with hi' | hi'
    · simp [hi, hi', not_lt.2 hi]
    · have hzero : (stampOf cap (2 ^ k) p).testBit i = false :=
        Nat.testBit_lt_two_pow (hp.trans_le (Nat.pow_le_pow_right (by decide) hi'))
      rw [hstamp, if_neg (not_lt.2 hi)] at hzero
      simp [not_lt.2 hi, hzero]

theorem next_stampOf (h : q.Shaped cap k) (hp : stampOf cap (2 ^ k) (p + 1) < 2 ^ 64) :
    q.next (stampOf cap (2 ^ k) p) = stampOf cap (2 ^ k) (p + 1) := by
  have hlt := (stampOf_lt_succ (p := p) h.pos h.lt).trans hp
  rw [next, h.index_stampOf, h.cap_eq, h.lap_stampOf hlt]
  have hmod := Nat.mod_lt p h.pos
  split
  · rename_i hnext
    rw [stampOf_succ_of_lt hnext]
  · have hnext : p % cap + 1 = cap := by omega
    rw [stampOf_succ_of_eq hnext] at hp ⊢
    rw [wrappingAdd, h.oneLap, Nat.mod_eq_of_lt hp]

theorem add_oneLap (h : q.Shaped cap k) (hp : stampOf cap (2 ^ k) (p + cap) < 2 ^ 64) :
    wrappingAdd (stampOf cap (2 ^ k) p) q.oneLap = stampOf cap (2 ^ k) (p + cap) := by
  rw [stampOf_add_cap h.pos] at hp ⊢
  rw [wrappingAdd, h.oneLap, Nat.mod_eq_of_lt hp]

theorem sub_oneLap (h : q.Shaped cap k) (hp : stampOf cap (2 ^ k) (p + cap) < 2 ^ 64) :
    wrappingSub (stampOf cap (2 ^ k) (p + cap)) q.oneLap = stampOf cap (2 ^ k) p := by
  rw [stampOf_add_cap h.pos] at hp ⊢
  rw [wrappingSub, h.oneLap, show stampOf cap (2 ^ k) p + 2 ^ k + 2 ^ 64 - 2 ^ k = stampOf cap (2 ^ k) p + 2 ^ 64 by omega,
    Nat.add_mod_right, Nat.mod_eq_of_lt ((Nat.le_add_right _ _).trans_lt hp)]

theorem setStamp (h : q.Shaped cap k) (stamp new : Nat) : (q.setStamp stamp new).Shaped cap k :=
  ⟨h.cap_eq, h.oneLap, by rw [ArrayQueue.setStamp, List.length_modify]; exact h.length, h.pos, h.lt, h.word⟩

theorem setValue (h : q.Shaped cap k) (stamp : Nat) (value : Option α) : (q.setValue stamp value).Shaped cap k :=
  ⟨h.cap_eq, h.oneLap, by rw [ArrayQueue.setValue, List.length_modify]; exact h.length, h.pos, h.lt, h.word⟩

/-- The elements between two stamps. -/
theorem between_stampOf (h : q.Shaped cap k) {a b : Nat} (hab : a ≤ b) (hroom : b ≤ a + cap) :
    q.between (stampOf cap (2 ^ k) a) (stampOf cap (2 ^ k) b) = b - a := by
  have hinj := (stampOf_strictMono h.pos h.lt).injective.eq_iff (a := b) (b := a)
  simp only [between, h.index_stampOf, h.cap_eq, hinj]
  have ha := Nat.div_add_mod a cap
  have hb := Nat.div_add_mod b cap
  have ha' := Nat.mod_lt a h.pos
  have hb' := Nat.mod_lt b h.pos
  have hdiv : a / cap ≤ b / cap := Nat.div_le_div_right hab
  have hdiv' : b / cap ≤ a / cap + 1 := by
    rw [← Nat.add_div_right a h.pos]
    exact Nat.div_le_div_right hroom
  rcases Nat.lt_or_ge (a / cap) (b / cap) with hlap | hlap
  · have hlap : b / cap = a / cap + 1 := by omega
    rw [hlap, Nat.mul_add, Nat.mul_one] at hb
    split
    · omega
    · split
      · omega
      · split <;> omega
  · have hlap : b / cap = a / cap := by omega
    rw [hlap] at hb
    split
    · omega
    · split
      · omega
      · split <;> omega

section
variable {stamp y : Nat} {value : Option α} {slot : Slot α}

theorem getElem?_setStamp (h : q.Shaped cap k) (hslot : q.buffer[p % cap]? = some slot) :
    (q.setStamp (stampOf cap (2 ^ k) p) stamp).buffer[p % cap]? = some { slot with stamp } := by
  simp [ArrayQueue.setStamp, h.index_stampOf, hslot]

theorem getElem?_setStamp_of_ne (h : q.Shaped cap k) (hy : y ≠ p % cap) :
    (q.setStamp (stampOf cap (2 ^ k) p) stamp).buffer[y]? = q.buffer[y]? := by
  simp [ArrayQueue.setStamp, h.index_stampOf, hy.symm]

theorem getElem?_setValue (h : q.Shaped cap k) (hslot : q.buffer[p % cap]? = some slot) :
    (q.setValue (stampOf cap (2 ^ k) p) value).buffer[p % cap]? = some { slot with value } := by
  simp [ArrayQueue.setValue, h.index_stampOf, hslot]

theorem getElem?_setValue_of_ne (h : q.Shaped cap k) (hy : y ≠ p % cap) :
    (q.setValue (stampOf cap (2 ^ k) p) value).buffer[y]? = q.buffer[y]? := by
  simp [ArrayQueue.setValue, h.index_stampOf, hy.symm]

theorem getElem?_mod (h : q.Shaped cap k) (p : Nat) : ∃ slot, q.buffer[p % cap]? = some slot :=
  ⟨_, List.getElem?_eq_getElem ((Nat.mod_lt p h.pos).trans_eq h.length.symm)⟩

end
end Shaped

theorem shaped_new {q : ArrayQueue α} (h : new α cap = some q) (hcap : cap < 2 ^ 64) : q.Shaped cap (cap.log2 + 1) := by
  unfold new at h
  split at h
  · cases h
  · rename_i hne
    cases h
    refine ⟨rfl, ?_, by simp, Nat.pos_of_ne_zero hne, Nat.lt_log2_self, Nat.succ_le_of_lt ((Nat.log2_lt hne).2 hcap)⟩
    rw [nextPowerOfTwo, if_neg (by omega), Nat.add_sub_cancel]

end ArrayQueue
end Queue
end BmlSys
