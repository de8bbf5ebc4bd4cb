import BmlSys.Runtime.AppendOnly

/-!
# Publication in the append-only store (`append_only.rs`)

`Inv` ties each slot to the call whose range it is in: its contents are determined by how far that call is, and all
other slots are untouched. Each kind of step keeps it: a step that only moves a call (`Inv.quiet`), a reservation
(`Inv.reserve`) and a store (`Inv.write`).
-/

namespace BmlSys.Runtime

namespace Progress

/-- The call has reserved the slots from `start`. -/
def Holds (call : Call) (start : Nat) : Progress → Prop
  | .publishing s _ _ => s = start
  | .done outcome => outcome = call.accepted start
  | _ => False

/-- The bits of its `k`-th value are stored. -/
def stored (k : Nat) : Progress → Bool
  | .publishing _ offset stored => decide (k < offset) || (decide (k = offset) && stored)
  | .done _ => true
  | _ => false

/-- Its `k`-th value is published. -/
def published (k : Nat) : Progress → Bool
  | .publishing _ offset _ => decide (k < offset)
  | .done _ => true
  | _ => false

/-- The slot of the `k`-th value of a call that stands here. -/
def slot (p : Progress) (k : Nat) (value : F64) : Slot := ⟨if p.stored k then value.bits else 0, p.published k⟩

end Progress

namespace Progress

theorem stored_of_published {p : Progress} {k : Nat} (h : p.published k = true) : p.stored k = true := by
  rcases p with _ | _ | _ | _
  case publishing =>
    rw [published, decide_eq_true_eq] at h
    simp [stored, h]
  case done => rfl
  all_goals nomatch h

@[simp] theorem slot_next (start offset : Nat) (value : F64) :
    (publishing start offset false).slot offset value = ⟨0, false⟩ := by
  simp [slot, stored, published]

@[simp] theorem slot_stored (start offset : Nat) (value : F64) :
    (publishing start offset true).slot offset value = ⟨value.bits, false⟩ := by
  simp [slot, stored, published]

@[simp] theorem slot_published (start offset : Nat) (value : F64) (stored : Bool) :
    (publishing start (offset + 1) stored).slot offset value = ⟨value.bits, true⟩ := by
  simp [slot, Progress.stored, published]

end Progress

theorem Call.accepted_injective {call : Call} {s t : Nat} (h : call.accepted s = call.accepted t) : s = t := by
  cases call with
  | append => exact Outcome.index.inj h
  | appendRecord => exact (Outcome.range.inj h).1
  | get => exact (Outcome.range.inj h).1

theorem Call.refused_ne_accepted (call : Call) (start : Nat) : call.refused ≠ call.accepted start := by
  cases call <;> nofun

theorem Call.read_ne_refused (call : Call) (value : Option F64) : .read value ≠ call.refused := by
  cases call <;> nofun

theorem Call.read_ne_accepted (call : Call) (start : Nat) (value : Option F64) : .read value ≠ call.accepted start := by
  cases call <;> nofun

theorem Progress.Holds.eq {call : Call} {p : Progress} {s t : Nat} (hs : p.Holds call s) (ht : p.Holds call t) : s = t := by
  rcases p with _ | _ | _ | outcome
  case publishing => exact hs.symm.trans ht
  case done => exact Call.accepted_injective (hs.symm.trans ht)
  all_goals exact hs.elim

namespace System
variable {ι : Type} {calls : ι → Call} {capacity : Nat} {sys : System ι}

/-- The call `i` has the slots from `start`. -/
def Holds (calls : ι → Call) (sys : System ι) (i : ι) (start : Nat) : Prop := (sys.progress i).Holds (calls i) start

/-- What a call that reads has seen is still there. -/
def Seen (call : Call) (results : AppendOnlyResults) : Progress → Prop
  | .loading index => call = .get index ∧ ∃ bits, results.slots[index]? = some ⟨bits, true⟩
  | .done (.read (some value)) => ∃ index, call = .get index ∧ results.slots[index]? = some ⟨value.bits, true⟩
  | .done .panicked => False
  | _ => True

structure Inv (calls : ι → Call) (capacity : Nat) (sys : System ι) : Prop where
  small : capacity < 2 ^ 64
  length : sys.results.slots.length = capacity
  le : sys.results.reserved ≤ capacity
  holds_le : ∀ i start, sys.Holds calls i start → start + (calls i).values.length ≤ sys.results.reserved
  disjoint : ∀ i j s t, i ≠ j → sys.Holds calls i s → sys.Holds calls j t →
    s + (calls i).values.length ≤ t ∨ t + (calls j).values.length ≤ s
  slot : ∀ i start k value, sys.Holds calls i start → (calls i).values[k]? = some value →
    sys.results.slots[start + k]? = some ((sys.progress i).slot k value)
  touched : ∀ index slot, sys.results.slots[index]? = some slot → slot ≠ {} →
    ∃ i start k, sys.Holds calls i start ∧ k < (calls i).values.length ∧ index = start + k
  logged : ∀ w ∈ sys.writes, ∃ i start k, sys.Holds calls i start ∧ k < (calls i).values.length ∧
    (w = .bits (start + k) ∧ (sys.progress i).stored k ∨ w = .ready (start + k) ∧ (sys.progress i).published k)
  nodup : sys.writes.Nodup
  seen : ∀ i, Seen (calls i) sys.results (sys.progress i)

/-- A slot has one owner, and one place in its record. -/
theorem Inv.owner_unique (h : Inv calls capacity sys) {i j : ι} {s t k l : Nat} (hi : sys.Holds calls i s)
    (hj : sys.Holds calls j t) (hk : k < (calls i).values.length) (hl : l < (calls j).values.length)
    (heq : s + k = t + l) : i = j ∧ k = l := by
  by_cases hij : i = j
  · subst hij
    obtain rfl := Progress.Holds.eq hi hj
    exact ⟨rfl, Nat.add_left_cancel heq⟩
  · rcases h.disjoint i j s t hij hi hj with h | h <;> omega

/-- What is visible was published there by the call that has the slot. -/
theorem Inv.get_owner (h : Inv calls capacity sys) {index : Nat} {value : F64} (hget : sys.results.get index = some value) :
    ∃ i start k, sys.Holds calls i start ∧ (calls i).values[k]? = some value ∧ index = start + k := by
  obtain ⟨slot, hslot, hvalue⟩ := Option.bind_eq_some_iff.1 hget
  have hne : slot ≠ {} := by
    rintro rfl
    nomatch hvalue
  obtain ⟨i, start, k, hi, hk, rfl⟩ := h.touched index slot hslot hne
  have hk' := List.getElem?_eq_getElem hk
  have hslot' := h.slot i start k _ hi hk'
  obtain rfl := Option.some.inj (hslot.symm.trans hslot')
  refine ⟨i, start, k, hi, hk'.trans ?_, rfl⟩
  cases hpublished : (sys.progress i).published k with
  | false =>
    rw [Progress.slot, hpublished] at hvalue
    nomatch hvalue
  | true =>
    rw [Progress.slot, hpublished, Progress.stored_of_published hpublished] at hvalue
    exact hvalue

/-- A finished writer has published all its values. -/
theorem Inv.get_done (h : Inv calls capacity sys) {i : ι} {start k : Nat} {value : F64}
    (hp : sys.progress i = .done ((calls i).accepted start)) (hk : (calls i).values[k]? = some value) :
    sys.results.get (start + k) = some value := by
  have hslot := h.slot i start k value (by rw [Holds, hp]; rfl) hk
  rw [AppendOnlyResults.get, hslot, hp]
  rfl

theorem inv_start (calls : ι → Call) (capacity : UInt64) : Inv calls capacity.toNat (start ι capacity) where
  small := capacity.toNat_lt
  length := List.length_replicate
  le := Nat.zero_le _
  holds_le _ _ h := h.elim
  disjoint _ _ _ _ _ h := h.elim
  slot _ _ _ _ h := h.elim
  touched index slot h hne := by
    have hmem : slot ∈ List.replicate capacity.toNat {} := List.mem_of_getElem? h
    exact absurd (List.eq_of_mem_replicate hmem) hne
  logged _ h := nomatch h
  nodup := List.nodup_nil
  seen _ := trivial

section
variable [DecidableEq ι] {i : ι} {p : Progress}

/-- The call `i` moves to `p`. -/
def move (sys : System ι) (i : ι) (p : Progress) (results : AppendOnlyResults) (writes : List Write) : System ι :=
  ⟨results, Function.update sys.progress i p, writes⟩

variable {results : AppendOnlyResults} {writes : List Write}

theorem progress_move_self : (sys.move i p results writes).progress i = p := Function.update_self ..

theorem progress_move_of_ne {j : ι} (h : j ≠ i) : (sys.move i p results writes).progress j = sys.progress j :=
  Function.update_of_ne h ..

theorem holds_move_self {start : Nat} : (sys.move i p results writes).Holds calls i start ↔ p.Holds (calls i) start := by
  rw [Holds, progress_move_self]

theorem holds_move_of_ne {j : ι} (h : j ≠ i) {start : Nat} :
    (sys.move i p results writes).Holds calls j start ↔ sys.Holds calls j start := by
  rw [Holds, progress_move_of_ne h, Holds]

/-- A call moves on without touching the store. -/
theorem Inv.quiet (h : Inv calls capacity sys) (hholds : ∀ start, p.Holds (calls i) start ↔ sys.Holds calls i start)
    (hp : ∀ start, p.Holds (calls i) start → ∀ k < (calls i).values.length,
      p.stored k = (sys.progress i).stored k ∧ p.published k = (sys.progress i).published k)
    (hseen : Seen (calls i) sys.results p) : Inv calls capacity (sys.move i p sys.results sys.writes) := by
  have hsame (j : ι) (start : Nat) : (sys.move i p sys.results sys.writes).Holds calls j start ↔ sys.Holds calls j start := by
    by_cases hj : j = i
    · subst hj
      exact holds_move_self.trans (hholds start)
    · exact holds_move_of_ne hj
  have hprogress (j : ι) (start k : Nat) (hj' : sys.Holds calls j start) (hk : k < (calls j).values.length) :
      ((sys.move i p sys.results sys.writes).progress j).stored k = (sys.progress j).stored k ∧
        ((sys.move i p sys.results sys.writes).progress j).published k = (sys.progress j).published k := by
    by_cases hj : j = i
    · subst hj
      rw [progress_move_self]
      exact hp start ((hholds start).2 hj') k hk
    · rw [progress_move_of_ne hj]
      exact ⟨rfl, rfl⟩
  refine ⟨h.small, h.length, h.le, ?_, ?_, ?_, ?_, ?_, h.nodup, ?_⟩
  · intro j start hj
    exact h.holds_le j start ((hsame j start).1 hj)
  · intro j l s t hjl hj hl
    exact h.disjoint j l s t hjl ((hsame j s).1 hj) ((hsame l t).1 hl)
  · intro j start k value hj hk
    have hj' := (hsame j start).1 hj
    obtain ⟨hstored, hpublished⟩ := hprogress j start k hj' (List.getElem?_eq_some_iff.1 hk).1
    rw [Progress.slot, hstored, hpublished]
    exact h.slot j start k value hj' hk
  · intro index slot hslot hne
    obtain ⟨j, start, k, hj, hk, heq⟩ := h.touched index slot hslot hne
    exact ⟨j, start, k, (hsame j start).2 hj, hk, heq⟩
  · intro w hw
    obtain ⟨j, start, k, hj, hk, hlogged⟩ := h.logged w hw
    obtain ⟨hstored, hpublished⟩ := hprogress j start k hj hk
    exact ⟨j, start, k, (hsame j start).2 hj, hk, by rwa [hstored, hpublished]⟩
  · intro j
    by_cases hj : j = i
    · subst hj
      rw [progress_move_self]
      exact hseen
    · rw [progress_move_of_ne hj]
      exact h.seen j

/-- A range behind all others is reserved. -/
theorem Inv.reserve (h : Inv calls capacity sys) (hwaiting : sys.progress i = .waiting)
    (hfits : sys.results.reserved + (calls i).values.length ≤ capacity) :
    Inv calls capacity (sys.move i (.publishing sys.results.reserved 0 false)
      { sys.results with reserved := sys.results.reserved + (calls i).values.length } sys.writes) := by
  have hnot (start : Nat) : ¬ sys.Holds calls i start := by
    rw [Holds, hwaiting]
    exact id
  refine ⟨h.small, h.length, hfits, ?_, ?_, ?_, ?_, ?_, h.nodup, ?_⟩
  · intro j start hj
    by_cases hji : j = i
    · subst hji
      obtain rfl := holds_move_self.1 hj
      exact le_rfl
    · exact (h.holds_le j start ((holds_move_of_ne hji).1 hj)).trans (Nat.le_add_right _ _)
  · intro j l s t hjl hj hl
    by_cases hji : j = i
    · subst hji
      obtain rfl := holds_move_self.1 hj
      exact .inr (h.holds_le l t ((holds_move_of_ne (Ne.symm hjl)).1 hl))
    · by_cases hli : l = i
      · subst hli
        obtain rfl := holds_move_self.1 hl
        exact .inl (h.holds_le j s ((holds_move_of_ne hji).1 hj))
      · exact h.disjoint j l s t hjl ((holds_move_of_ne hji).1 hj) ((holds_move_of_ne hli).1 hl)
  · intro j start k value hj hk
    by_cases hji : j = i
    · subst hji
      obtain rfl := holds_move_self.1 hj
      rw [progress_move_self]
      -- nothing behind the reserved slots was touched
      have hlt := (List.getElem?_eq_some_iff.1 hk).1
      have hslot := List.getElem?_eq_getElem (show sys.results.reserved + k < sys.results.slots.length by
        rw [h.length]; omega)
      refine hslot.trans (congrArg some ?_)
      by_contra hne
      obtain ⟨l, t, m, hl, hm, heq⟩ := h.touched _ _ hslot fun h' => hne (h'.trans (by simp [Progress.slot, Progress.stored,
        Progress.published]))
      have hle := h.holds_le l t hl
      omega
    · rw [progress_move_of_ne hji]
      exact h.slot j start k value ((holds_move_of_ne hji).1 hj) hk
  · intro index slot hslot hne
    obtain ⟨j, start, k, hj, hk, heq⟩ := h.touched index slot hslot hne
    have hji : j ≠ i := fun hji => hnot start (hji ▸ hj)
    exact ⟨j, start, k, (holds_move_of_ne hji).2 hj, hk, heq⟩
  · intro w hw
    obtain ⟨j, start, k, hj, hk, hlogged⟩ := h.logged w hw
    have hji : j ≠ i := fun hji => hnot start (hji ▸ hj)
    refine ⟨j, start, k, (holds_move_of_ne hji).2 hj, hk, ?_⟩
    rwa [progress_move_of_ne hji]
  · intro j
    by_cases hji : j = i
    · subst hji
      rw [progress_move_self]
      trivial
    · rw [progress_move_of_ne hji]
      exact h.seen j

/-- What a store to the slot of its `o`-th value changes for a call. -/
structure Stores (o start : Nat) (before after : Progress) (w : Write) : Prop where
  holds : ∀ call, after.Holds call start
  others : ∀ k ≠ o, after.stored k = before.stored k ∧ after.published k = before.published k
  stored : after.stored o = true
  unpublished : before.published o = false
  write : w = .bits (start + o) ∧ before.stored o = false ∧ after.published o = false ∨
    w = .ready (start + o) ∧ after.published o = true

/-- A store to the slot that is next. -/
theorem Inv.write (h : Inv calls capacity sys) {o start : Nat} {value : F64} {w : Write}
    (hold : sys.Holds calls i start) (hvalue : (calls i).values[o]? = some value)
    (hp : Stores o start (sys.progress i) p w) (hseen : ∀ results, Seen (calls i) results p) :
    Inv calls capacity (sys.move i p
      { sys.results with slots := sys.results.slots.set (start + o) (p.slot o value) } (sys.writes ++ [w])) := by
  have ho : o < (calls i).values.length := (List.getElem?_eq_some_iff.1 hvalue).1
  have hlt : start + o < sys.results.slots.length := by
    have hle := (h.holds_le i start hold).trans h.le
    rw [h.length]
    omega
  have hsame (j : ι) (s : Nat) {results : AppendOnlyResults} {writes : List Write} :
      (sys.move i p results writes).Holds calls j s ↔ sys.Holds calls j s := by
    by_cases hj : j = i
    · subst hj
      refine holds_move_self.trans ⟨fun hs => ?_, fun hs => ?_⟩
      · obtain rfl := Progress.Holds.eq hs (hp.holds (calls j))
        exact hold
      · obtain rfl := Progress.Holds.eq hs hold
        exact hp.holds (calls j)
    · exact holds_move_of_ne hj
  have hslot := h.slot i start o value hold hvalue
  have hother {index : Nat} {bits : UInt64} (hready : sys.results.slots[index]? = some ⟨bits, true⟩) :
      (sys.results.slots.set (start + o) (p.slot o value))[index]? = some ⟨bits, true⟩ := by
    rw [List.getElem?_set_ne, hready]
    rintro rfl
    rw [hslot, Progress.slot, hp.unpublished] at hready
    cases hready
  refine ⟨h.small, List.length_set.trans h.length, h.le, ?_, ?_, ?_, ?_, ?_, ?_, ?_⟩
  · intro j s hj
    exact h.holds_le j s ((hsame j s).1 hj)
  · intro j l s t hjl hj hl
    exact h.disjoint j l s t hjl ((hsame j s).1 hj) ((hsame l t).1 hl)
  · intro j s k v hj hk
    have hj' := (hsame j s).1 hj
    change (sys.results.slots.set (start + o) (p.slot o value))[s + k]? = _
    by_cases heq : start + o = s + k
    · obtain ⟨rfl, rfl⟩ := h.owner_unique hold hj' ho (List.getElem?_eq_some_iff.1 hk).1 heq
      obtain rfl := Option.some.inj (hvalue.symm.trans hk)
      rw [← heq, List.getElem?_set_self hlt, progress_move_self]
    · rw [List.getElem?_set_ne heq, h.slot j s k v hj' hk]
      by_cases hji : j = i
      · subst hji
        obtain rfl := Progress.Holds.eq hj' hold
        obtain ⟨hstored, hpublished⟩ := hp.others k fun hko => heq (by rw [hko])
        rw [progress_move_self, Progress.slot, Progress.slot, hstored, hpublished]
      · rw [progress_move_of_ne hji]
  · intro index slot hslot' hne
    by_cases heq : start + o = index
    · exact ⟨i, start, o, (hsame i start).2 hold, ho, heq.symm⟩
    · change (sys.results.slots.set (start + o) (p.slot o value))[index]? = _ at hslot'
      rw [List.getElem?_set_ne heq] at hslot'
      obtain ⟨j, s, k, hj, hk, hindex⟩ := h.touched index slot hslot' hne
      exact ⟨j, s, k, (hsame j s).2 hj, hk, hindex⟩
  · intro w' hw'
    rcases List.mem_append.1 hw' with hw' | hw'
    · obtain ⟨j, s, k, hj, hk, hlogged⟩ := h.logged w' hw'
      refine ⟨j, s, k, (hsame j s).2 hj, hk, ?_⟩
      by_cases hji : j = i
      · subst hji
        rw [progress_move_self]
        by_cases hko : k = o
        · subst hko
          rcases hlogged with ⟨rfl, -⟩ | ⟨-, hpublished⟩
          · exact .inl ⟨rfl, hp.stored⟩
          · rw [hp.unpublished] at hpublished
            nomatch hpublished
        · obtain ⟨hstored, hpublished⟩ := hp.others k hko
          rwa [hstored, hpublished]
      · rwa [progress_move_of_ne hji]
    · obtain rfl := List.mem_singleton.1 hw'
      refine ⟨i, start, o, (hsame i start).2 hold, ho, ?_⟩
      rw [progress_move_self]
      rcases hp.write with ⟨rfl, -⟩ | ⟨rfl, hpublished⟩
      · exact .inl ⟨rfl, hp.stored⟩
      · exact .inr ⟨rfl, hpublished⟩
  · change (sys.writes ++ [w]).Nodup
    rw [← List.concat_eq_append, List.nodup_concat]
    refine ⟨fun hmem => ?_, h.nodup⟩
    obtain ⟨j, s, k, hj, hk, hlogged⟩ := h.logged w hmem
    have hsk : start + o = s + k → j = i ∧ k = o := fun heq =>
      have h' := h.owner_unique hold hj ho hk heq
      ⟨h'.1.symm, h'.2.symm⟩
    rcases hp.write with ⟨rfl, hstored, -⟩ | ⟨rfl, -⟩
    · rcases hlogged with ⟨heq, hstored'⟩ | ⟨heq, -⟩
      · obtain ⟨rfl, rfl⟩ := hsk (Write.bits.inj heq)
        rw [hstored] at hstored'
        nomatch hstored'
      · nomatch heq
    · rcases hlogged with ⟨heq, -⟩ | ⟨heq, hpublished⟩
      · nomatch heq
      · obtain ⟨rfl, rfl⟩ := hsk (Write.ready.inj heq)
        rw [hp.unpublished] at hpublished
        nomatch hpublished
  · intro j
    by_cases hji : j = i
    · subst hji
      rw [progress_move_self]
      exact hseen _
    · rw [progress_move_of_ne hji]
      have hj := h.seen j
      rcases hprogress : sys.progress j with _ | _ | index | outcome
      case loading =>
        rw [hprogress] at hj
        obtain ⟨hcall, bits, hready⟩ := hj
        exact ⟨hcall, bits, hother hready⟩
      case done =>
        rw [hprogress] at hj
        rcases outcome with _ | _ | _ | _ | (_ | v) | _
        case read.some =>
          obtain ⟨index, hcall, hready⟩ := hj
          exact ⟨index, hcall, hother hready⟩
        all_goals exact hj
      all_goals trivial

/-- What a step of the call `i` can be. -/
inductive Next (calls : ι → Call) (sys : System ι) (i : ι) : System ι → Prop
  | load {index : Nat} {bits : UInt64} (hp : sys.progress i = .waiting) (hcall : calls i = .get index)
      (hslot : sys.results.slots[index]? = some ⟨bits, true⟩) :
      Next calls sys i (sys.move i (.loading index) sys.results sys.writes)
  | absent {index : Nat} (hp : sys.progress i = .waiting) (hcall : calls i = .get index)
      (hget : sys.results.get index = none) : Next calls sys i (sys.move i (.done (.read none)) sys.results sys.writes)
  | refuse (hp : sys.progress i = .waiting) (hcall : ∀ index, calls i ≠ .get index)
      (hfull : sys.results.capacity < sys.results.reserved + (calls i).values.length) :
      Next calls sys i (sys.move i (.done (calls i).refused) sys.results sys.writes)
  | reserve (hp : sys.progress i = .waiting) (hcall : ∀ index, calls i ≠ .get index)
      (hfits : sys.results.reserved + (calls i).values.length ≤ sys.results.capacity) :
      Next calls sys i (sys.move i (.publishing sys.results.reserved 0 false)
        { sys.results with reserved := sys.results.reserved + (calls i).values.length } sys.writes)
  | write {start offset start' offset' : Nat} {stored stored' : Bool} {value : F64} {w : Write}
      (hp : sys.progress i = .publishing start offset stored) (hvalue : (calls i).values[offset]? = some value)
      (hstores : Stores offset start (sys.progress i) (.publishing start' offset' stored') w) :
      Next calls sys i (sys.move i (.publishing start' offset' stored')
        { sys.results with
          slots := sys.results.slots.set (start + offset) (Progress.slot (.publishing start' offset' stored') offset value) }
        (sys.writes ++ [w]))
  | finish {start offset : Nat} {stored : Bool} (hp : sys.progress i = .publishing start offset stored)
      (hoffset : (calls i).values.length ≤ offset) :
      Next calls sys i (sys.move i (.done ((calls i).accepted start)) sys.results sys.writes)
  | read {index : Nat} {bits : UInt64} (hp : sys.progress i = .loading index)
      (hslot : sys.results.slots[index]? = some ⟨bits, true⟩) :
      Next calls sys i (sys.move i (.done (.read (some ⟨bits⟩))) sys.results sys.writes)
  | stay {outcome : Outcome} (hp : sys.progress i = .done outcome) :
      Next calls sys i (sys.move i (.done outcome) sys.results sys.writes)

theorem Next.progress_of_ne {sys' : System ι} (h : Next calls sys i sys') {j : ι} (hij : j ≠ i) :
    sys'.progress j = sys.progress j := by
  cases h <;> exact progress_move_of_ne hij

/-- The first step of a call that writes. -/
theorem step_writer {call : Call} (results : AppendOnlyResults) (hcall : ∀ index, call ≠ .get index) :
    (∀ start results', results.reserve call.values.length = some (start, results') → call.values.length < 2 ^ 64 →
      results.step call .waiting = (results', .publishing start 0 false, [])) ∧
    (results.reserve call.values.length = none → results.step call .waiting = (results, .done call.refused, [])) := by
  constructor
  · intro start results' hreserve hlength
    rw [AppendOnlyResults.step, if_neg (Nat.not_le.2 hlength), hreserve]
    exact hcall
  · intro hreserve
    rw [AppendOnlyResults.step, hreserve, ite_self]
    exact hcall

theorem Inv.next_writer (h : Inv calls capacity sys) (hp : sys.progress i = .waiting)
    (hcall : ∀ index, calls i ≠ .get index) : Next calls sys i (sys.step calls i) := by
  obtain ⟨hroom, hfull⟩ := step_writer sys.results hcall
  have hcapacity : sys.results.capacity < 2 ^ 64 := h.length.trans_lt h.small
  by_cases hfits : sys.results.reserved + (calls i).values.length ≤ sys.results.capacity
  · have hreserve : sys.results.reserve (calls i).values.length = some (sys.results.reserved,
        { sys.results with reserved := sys.results.reserved + (calls i).values.length }) :=
      if_pos ⟨hfits.trans_lt hcapacity, hfits⟩
    rw [System.step, hp, hroom _ _ hreserve (by omega), List.append_nil]
    exact .reserve hp hcall hfits
  · have hreserve : sys.results.reserve (calls i).values.length = none := if_neg fun hle => hfits hle.2
    rw [System.step, hp, hfull hreserve, List.append_nil]
    exact .refuse hp hcall (not_le.1 hfits)

theorem Inv.next (h : Inv calls capacity sys) (i : ι) : Next calls sys i (sys.step calls i) := by
  rcases hp : sys.progress i with _ | ⟨start, offset, stored⟩ | index | outcome
  · rcases hcall : calls i with _ | _ | index
    case append => exact h.next_writer hp fun index => by rw [hcall]; nofun
    case appendRecord => exact h.next_writer hp fun index => by rw [hcall]; nofun
    rcases hslot : sys.results.slots[index]? with _ | ⟨bits, _ | _⟩
    case get.some.true =>
      rw [System.step, hp, hcall]
      simp only [AppendOnlyResults.step, hslot, List.append_nil]
      exact .load hp hcall hslot
    all_goals
      rw [System.step, hp, hcall]
      simp only [AppendOnlyResults.step, hslot, List.append_nil]
      exact .absent hp hcall (by simp [AppendOnlyResults.get, hslot])
  · rcases hvalue : (calls i).values[offset]? with _ | value
    · rw [System.step, hp]
      simp only [AppendOnlyResults.step, hvalue, List.append_nil]
      exact .finish hp (List.getElem?_eq_none_iff.1 hvalue)
    · have hholds : sys.Holds calls i start := by rw [Holds, hp]; rfl
      have hslot := h.slot i start offset value hholds hvalue
      rw [hp] at hslot
      rw [System.step, hp]
      cases stored with
      | false =>
        rw [Progress.slot_next] at hslot
        have hstores : Stores offset start (sys.progress i) (.publishing start offset true) (.bits (start + offset)) := by
          rw [hp]
          refine ⟨fun _ => rfl, fun k hk => ?_, ?_, ?_, .inl ⟨rfl, ?_, ?_⟩⟩ <;>
            simp [Progress.stored, Progress.published, *]
        have hnext := Next.write hp hvalue hstores
        rw [Progress.slot_stored] at hnext
        simp only [AppendOnlyResults.step, hvalue, hslot]
        exact hnext
      | true =>
        rw [Progress.slot_stored] at hslot
        have hstores : Stores offset start (sys.progress i) (.publishing start (offset + 1) false)
            (.ready (start + offset)) := by
          rw [hp]
          refine ⟨fun _ => rfl, fun k hk => ?_, ?_, ?_, .inr ⟨rfl, ?_⟩⟩
          · have hle : k ≤ offset ↔ k < offset := by omega
            simp [Progress.stored, Progress.published, hk, hle]
          all_goals simp [Progress.stored, Progress.published]
        have hnext := Next.write hp hvalue hstores
        rw [Progress.slot_published] at hnext
        simp only [AppendOnlyResults.step, hvalue, hslot, if_pos]
        exact hnext
  · have hseen := h.seen i
    rw [hp] at hseen
    obtain ⟨hcall, bits, hslot⟩ := hseen
    rw [System.step, hp]
    simp only [AppendOnlyResults.step, hslot, List.append_nil]
    exact .read hp hslot
  · rw [System.step, hp]
    simp only [AppendOnlyResults.step, List.append_nil]
    exact .stay hp

theorem Inv.step (h : Inv calls capacity sys) (i : ι) : Inv calls capacity (sys.step calls i) := by
  have hseen := h.seen i
  have hnext := h.next i
  generalize sys.step calls i = sys' at hnext ⊢
  cases hnext with
  | load hp hcall hslot =>
    refine h.quiet (fun start => ?_) (fun start hstart => hstart.elim) ⟨hcall, _, hslot⟩
    rw [Holds, hp]
    exact Iff.rfl
  | absent hp hcall hget =>
    refine h.quiet (fun start => ?_) (fun start hstart => absurd hstart (Call.read_ne_accepted _ _ _)) trivial
    rw [Holds, hp]
    exact iff_of_false (Call.read_ne_accepted _ _ _) id
  | refuse hp hcall hfull =>
    refine h.quiet (fun start => ?_) (fun start hstart => absurd hstart (Call.refused_ne_accepted _ _)) ?_
    · rw [Holds, hp]
      exact iff_of_false (Call.refused_ne_accepted _ _) id
    · cases calls i <;> trivial
  | reserve hp hcall hfits => exact h.reserve hp (h.length ▸ hfits)
  | write hp hvalue hstores =>
    refine h.write ?_ hvalue hstores fun _ => trivial
    rw [Holds, hp]
    rfl
  | finish hp hoffset =>
    rename_i s offset stored
    refine h.quiet (fun start => ?_) (fun start _ k hk => ?_) ?_
    · rw [Holds, hp]
      exact ⟨Call.accepted_injective, congrArg _⟩
    · have hlt : k < offset := hk.trans_le hoffset
      rw [hp]
      simp [Progress.stored, Progress.published, hlt]
    · cases calls i <;> trivial
  | read hp hslot =>
    rw [hp] at hseen
    refine h.quiet (fun start => ?_) (fun start hstart => absurd hstart (Call.read_ne_accepted _ _ _)) ⟨_, hseen.1, hslot⟩
    rw [Holds, hp]
    exact iff_of_false (Call.read_ne_accepted _ _ _) id
  | stay hp =>
    refine h.quiet (fun start => ?_) (fun start _ k _ => ?_) ?_
    · rw [Holds, hp]
    · rw [hp]
      exact ⟨rfl, rfl⟩
    · rw [← hp]
      exact hseen

/-- Published slots stay as they are. -/
theorem Inv.get_step (h : Inv calls capacity sys) (i : ι) {index : Nat} {value : F64}
    (hget : sys.results.get index = some value) : (sys.step calls i).results.get index = some value := by
  have hnext := h.next i
  generalize sys.step calls i = sys' at hnext ⊢
  cases hnext with
  | @write start offset _ _ _ _ value' _ hp hvalue hstores =>
    have hholds : sys.Holds calls i start := by rw [Holds, hp]; rfl
    have hslot := h.slot i start offset value' hholds hvalue
    change AppendOnlyResults.get ⟨sys.results.slots.set (start + offset) _, _⟩ index = _
    rw [AppendOnlyResults.get, List.getElem?_set_ne, ← hget]
    · rfl
    · rintro rfl
      rw [AppendOnlyResults.get, hslot, Option.bind_eq_bind, Option.bind_some, Progress.slot, hstores.unpublished] at hget
      nomatch hget
  | _ => exact hget

/-- A slot becomes visible by the store of its flag. -/
theorem Inv.ready_step (h : Inv calls capacity sys) (i : ι) {index : Nat} {value : F64}
    (hget : (sys.step calls i).results.get index = some value) :
    sys.results.get index = some value ∨ .ready index ∈ (sys.step calls i).writes := by
  have hnext := h.next i
  generalize sys.step calls i = sys' at hnext hget ⊢
  cases hnext with
  | @write start offset _ _ _ _ value' _ hp hvalue hstores =>
    change AppendOnlyResults.get ⟨sys.results.slots.set (start + offset) _, _⟩ index = _ at hget
    by_cases heq : start + offset = index
    · subst heq
      rcases hstores.write with ⟨-, -, hpublished⟩ | ⟨rfl, -⟩
      · have hholds : sys.Holds calls i start := by rw [Holds, hp]; rfl
        have hlt := (List.getElem?_eq_some_iff.1 (h.slot i start offset value' hholds hvalue)).1
        rw [AppendOnlyResults.get, List.getElem?_set_self hlt, Option.bind_eq_bind, Option.bind_some, Progress.slot,
          hpublished] at hget
        nomatch hget
      · exact .inr (List.mem_append_right _ (List.mem_singleton_self _))
    · rw [AppendOnlyResults.get, List.getElem?_set_ne heq] at hget
      exact .inl hget
  | _ => exact .inl hget

theorem writes_step (sys : System ι) (i : ι) {w : Write} (hw : w ∈ sys.writes) : w ∈ (sys.step calls i).writes :=
  List.mem_append_left _ hw

/-! ### Runs -/

theorem run_concat (calls : ι → Call) (capacity : UInt64) (schedule : List ι) (i : ι) :
    run calls capacity (schedule ++ [i]) = (run calls capacity schedule).step calls i := by
  rw [run, List.foldl_append]
  rfl

theorem inv_run (calls : ι → Call) (capacity : UInt64) (schedule : List ι) :
    Inv calls capacity.toNat (run calls capacity schedule) := by
  induction schedule using List.reverseRecOn with
  | nil => exact inv_start calls capacity
  | append_singleton schedule i ih =>
    rw [run_concat]
    exact ih.step i

variable {capacity : UInt64} {schedule : List ι}

theorem get_run_append {index : Nat} {value : F64} (hget : (run calls capacity schedule).results.get index = some value)
    (later : List ι) : (run calls capacity (schedule ++ later)).results.get index = some value := by
  induction later using List.reverseRecOn with
  | nil => rwa [List.append_nil]
  | append_singleton later i ih =>
    rw [← List.append_assoc, run_concat]
    exact (inv_run calls capacity _).get_step i ih

theorem ready_run {index : Nat} {value : F64} (hget : (run calls capacity schedule).results.get index = some value) :
    .ready index ∈ (run calls capacity schedule).writes := by
  induction schedule using List.reverseRecOn with
  | nil =>
    obtain ⟨i, start, k, hi, -⟩ := (inv_start calls capacity).get_owner hget
    exact hi.elim
  | append_singleton schedule i ih =>
    rw [run_concat] at hget ⊢
    rcases (inv_run calls capacity schedule).ready_step i hget with hget | hready
    · exact writes_step _ i (ih hget)
    · exact hready

/-- A refusal goes back to a reservation that did not fit, and that step changed nothing. -/
theorem refused_run {i : ι} (hcall : ∀ index, calls i ≠ .get index)
    (hp : (run calls capacity schedule).progress i = .done (calls i).refused) :
    ∃ before after, schedule = before ++ i :: after ∧ (run calls capacity before).progress i = .waiting ∧
      capacity.toNat < (run calls capacity before).results.reserved + (calls i).values.length ∧
      (run calls capacity (before ++ [i])).results = (run calls capacity before).results ∧
      (run calls capacity (before ++ [i])).writes = (run calls capacity before).writes := by
  induction schedule using List.reverseRecOn with
  | nil => nomatch hp
  | append_singleton schedule j ih =>
    have h := inv_run calls capacity schedule
    by_cases hold : (run calls capacity schedule).progress i = .done (calls i).refused
    · obtain ⟨before, after, rfl, hbefore⟩ := ih hold
      exact ⟨before, after ++ [j], by rw [List.append_assoc, List.cons_append], hbefore⟩
    · have hnext := h.next j
      rw [run_concat] at hp
      have hstep := run_concat calls capacity schedule j
      generalize (run calls capacity schedule).step calls j = sys' at hnext hp hstep
      by_cases hij : i = j
      swap
      · exact absurd ((hnext.progress_of_ne hij).symm.trans hp) hold
      subst hij
      refine ⟨schedule, [], rfl, ?_⟩
      rw [hstep]
      cases hnext with
      | refuse hwaiting _ hfull => exact ⟨hwaiting, h.length ▸ hfull, rfl, rfl⟩
      | absent _ hget _ => exact absurd hget (hcall _)
      | finish =>
        rw [progress_move_self] at hp
        exact absurd (Progress.done.inj hp).symm (Call.refused_ne_accepted _ _)
      | read =>
        rw [progress_move_self] at hp
        exact absurd (Progress.done.inj hp) (Call.read_ne_refused _ _)
      | stay hdone =>
        rw [progress_move_self] at hp
        exact absurd (hdone.trans hp) hold
      | _ =>
        rw [progress_move_self] at hp
        nomatch hp

/-- Where a call can stand at all. -/
def Shape (call : Call) : Progress → Prop
  | .waiting => True
  | .publishing _ _ _ => ∀ index, call ≠ .get index
  | .loading index => call = .get index
  | .done outcome =>
    (∃ index value, call = .get index ∧ outcome = .read value) ∨
      (∀ index, call ≠ .get index) ∧ (outcome = call.refused ∨ ∃ start, outcome = call.accepted start)

theorem shape_run (i : ι) : Shape (calls i) ((run calls capacity schedule).progress i) := by
  induction schedule using List.reverseRecOn with
  | nil => trivial
  | append_singleton schedule j ih =>
    have h := inv_run calls capacity schedule
    have hnext := h.next j
    rw [run_concat]
    generalize (run calls capacity schedule).step calls j = sys' at hnext ⊢
    by_cases hij : i = j
    swap
    · rw [hnext.progress_of_ne hij]
      exact ih
    subst hij
    cases hnext <;> rw [progress_move_self]
    case load hp hcall hslot => exact hcall
    case absent index hp hcall hget => exact .inl ⟨index, none, hcall, rfl⟩
    case refuse hp hcall hfull => exact .inr ⟨hcall, .inl rfl⟩
    case reserve hp hcall hfits => exact hcall
    case write hp hvalue hstores =>
      rw [hp] at ih
      exact ih
    case finish start _ _ hp hoffset =>
      rw [hp] at ih
      exact .inr ⟨ih, .inr ⟨start, rfl⟩⟩
    case read index bits hp hslot =>
      rw [hp] at ih
      exact .inl ⟨index, some ⟨bits⟩, ih, rfl⟩
    case stay hp =>
      rw [hp] at ih
      exact ih

/-- A reader that starts after a publication reads it. -/
theorem reads_published {i : ι} {index : Nat} {value : F64} (hcall : calls i = .get index)
    (hp : (run calls capacity schedule).progress i = .waiting)
    (hget : (run calls capacity schedule).results.get index = some value) (later : List ι) {outcome : Outcome}
    (hdone : (run calls capacity (schedule ++ later)).progress i = .done outcome) : outcome = .read (some value) := by
  suffices (run calls capacity (schedule ++ later)).progress i ∈
      [.waiting, .loading index, .done (.read (some value))] by
    rw [hdone] at this
    simpa using this
  clear hdone
  induction later using List.reverseRecOn with
  | nil =>
    rw [List.append_nil, hp]
    exact List.mem_cons_self
  | append_singleton later j ih =>
    have hget' := get_run_append hget later
    have hnext := (inv_run calls capacity (schedule ++ later)).next j
    rw [← List.append_assoc, run_concat]
    generalize (run calls capacity (schedule ++ later)).step calls j = sys' at hnext ⊢
    by_cases hij : i = j
    swap
    · rw [hnext.progress_of_ne hij]
      exact ih
    subst hij
    cases hnext <;> rw [progress_move_self]
    case load hp' hcall' hslot =>
      obtain rfl := Call.get.inj (hcall.symm.trans hcall')
      simp
    case absent hp' hcall' hnone =>
      obtain rfl := Call.get.inj (hcall.symm.trans hcall')
      rw [hget'] at hnone
      nomatch hnone
    case refuse hcall' _ => exact absurd hcall (hcall' index)
    case reserve hcall' _ => exact absurd hcall (hcall' index)
    case write hp' _ _ =>
      rw [hp'] at ih
      simp at ih
    case finish hp' _ =>
      rw [hp'] at ih
      simp at ih
    case read index' bits hp' hslot =>
      rw [hp'] at ih
      obtain rfl : index' = index := by simpa using ih
      rw [AppendOnlyResults.get, hslot] at hget'
      obtain rfl : ⟨bits⟩ = value := Option.some.inj hget'
      simp
    case stay hp' =>
      rw [← hp']
      exact ih

/-- In every interleaving, records are disjoint ranges within the capacity and are read as they were published. -/
theorem append_only_publication (calls : ι → Call) (capacity : UInt64) (schedule : List ι) :
    let sys := run calls capacity schedule
    sys.results.reserved ≤ capacity.toNat ∧ sys.writes.Nodup ∧
    (∀ i start, sys.progress i = .done ((calls i).accepted start) → start + (calls i).values.length ≤ capacity.toNat ∧
      ∀ k value, (calls i).values[k]? = some value → sys.results.get (start + k) = some value) ∧
    (∀ i j s t, i ≠ j → sys.progress i = .done ((calls i).accepted s) → sys.progress j = .done ((calls j).accepted t) →
      s + (calls i).values.length ≤ t ∨ t + (calls j).values.length ≤ s) ∧
    (∀ i, (∀ index, calls i ≠ .get index) → ∀ outcome, sys.progress i = .done outcome →
      (∃ start, outcome = (calls i).accepted start) ∨ outcome = (calls i).refused ∧
        ∃ before after, schedule = before ++ i :: after ∧ (run calls capacity before).progress i = .waiting ∧
          capacity.toNat < (run calls capacity before).results.reserved + (calls i).values.length ∧
          (run calls capacity (before ++ [i])).results = (run calls capacity before).results ∧
          (run calls capacity (before ++ [i])).writes = (run calls capacity before).writes) ∧
    (∀ index value, sys.results.get index = some value → .ready index ∈ sys.writes ∧
      (∃ i start k, sys.Holds calls i start ∧ (calls i).values[k]? = some value ∧ index = start + k) ∧
      ∀ later, (run calls capacity (schedule ++ later)).results.get index = some value) ∧
    ∀ i index, calls i = .get index → ∀ outcome,
      (sys.progress i = .done outcome → ∃ value, outcome = .read value ∧ ∀ v, value = some v → sys.results.get index = some v) ∧
      ∀ later value, sys.progress i = .waiting → sys.results.get index = some value →
        (run calls capacity (schedule ++ later)).progress i = .done outcome → outcome = .read (some value) := by
  intro sys
  have h : Inv calls capacity.toNat sys := inv_run calls capacity schedule
  have hholds {i : ι} {start : Nat} (hp : sys.progress i = .done ((calls i).accepted start)) : sys.Holds calls i start := by
    rw [Holds, hp]
    rfl
  refine ⟨h.le, h.nodup, fun i start hp => ⟨(h.holds_le i start (hholds hp)).trans h.le, fun k value hk => h.get_done hp hk⟩,
    fun i j s t hij hs ht => h.disjoint i j s t hij (hholds hs) (hholds ht), ?_, ?_, ?_⟩
  · intro i hcall outcome hp
    have hshape : Shape (calls i) (sys.progress i) := shape_run i
    rw [hp] at hshape
    rcases hshape with ⟨index, value, hget, -⟩ | ⟨-, rfl | haccepted⟩
    · exact absurd hget (hcall index)
    · exact .inr ⟨rfl, refused_run hcall hp⟩
    · exact .inl haccepted
  · intro index value hget
    exact ⟨ready_run hget, h.get_owner hget, get_run_append hget⟩
  · intro i index hcall outcome
    refine ⟨fun hp => ?_, fun later value hp hget hdone => reads_published hcall hp hget later hdone⟩
    have hshape : Shape (calls i) (sys.progress i) := shape_run i
    rw [hp] at hshape
    rcases hshape with ⟨index', value, hget, rfl⟩ | ⟨hwriter, -⟩
    · refine ⟨value, rfl, ?_⟩
      rintro v rfl
      have hseen := h.seen i
      rw [hp] at hseen
      obtain ⟨index'', hget', hslot⟩ := hseen
      obtain rfl := Call.get.inj (hcall.symm.trans hget')
      rw [AppendOnlyResults.get, hslot]
      rfl
    · exact absurd hcall (hwriter index)

end

end System
end BmlSys.Runtime
