import BmlSys.Number.Matrix
import BmlSys.Number.Recognition

/-!
# What the matrix operations keep and compute

`Within` is what the validation of a matrix under limits checks; every matrix that an operation returns is within its own
limits (`BmlMatrix.Inv`). On such matrices all positions that the loops compute are in range, so no operation panics. The
triple loop of the product fills one cell after the other with the left-to-right sum of its checked products (`Sums`).
-/

namespace BmlSys
open Except PrefixCode

variable {limits : MatrixLimits} {rows columns row column : Nat}

/-! ### Checks and positions -/

/-- No panic. -/
def Calm {ε : Type} (e : Fault ε) : Prop := e ≠ .panic

theorem calm_error {ε : Type} (e : ε) : Calm (.error e) := fun h => by cases h

theorem sat_returned {ε α : Type} {Q : α → Prop} {x : Except ε α} (h : ∀ a, x = .ok a → Q a) :
    (x.mapError Fault.error).Sat Q Calm :=
  Sat.mapError (E := fun _ => True) (Sat.iff_forall.2 ⟨h, fun _ _ => trivial⟩) fun e _ => calm_error e

theorem count_eq_ok {n : Nat} : count rows columns limits = .ok n ↔
    rows * columns < 2 ^ 64 ∧ rows * columns = n ∧ n ≤ limits.maxElements := by
  simp only [count, bind_eq_ok, okOr_eq_ok, checkedMul_eq_some, failIf_eq_ok, pure_eq_ok, not_lt]
  constructor
  · rintro ⟨n, ⟨hlt, rfl⟩, -, hle, rfl⟩
    exact ⟨hlt, rfl, hle⟩
  · rintro ⟨hlt, rfl, hle⟩
    exact ⟨_, ⟨hlt, rfl⟩, (), hle, rfl⟩

theorem position_lt (hr : row < rows) (hc : column < columns) : row * columns + column < rows * columns := by
  have := Nat.mul_le_mul_right columns (Nat.succ_le_of_lt hr)
  rw [Nat.succ_mul] at this
  omega

theorem sat_locate (h : columns ≠ 0) (i : Nat) :
    (locate columns i).Sat (fun p => p = (i / columns, i % columns)) Calm :=
  (Sat.failIf fun h0 => absurd h0 h).bind fun _ _ => rfl

theorem sat_atElement {ε α : Type} {Q : α → Prop} {x : Except ε α} {error : Nat → Nat → ε → MatrixError} (i : Nat)
    (h : columns ≠ 0) (hQ : ∀ a, x = .ok a → Q a) : (atElement columns i x error).Sat Q Calm := by
  cases x with
  | ok a => exact hQ a rfl
  | error e => exact (sat_locate h i).bind fun _ _ => calm_error _

/-- An element inside the shape is found. -/
theorem sat_element {α : Type} {items : List α} (hlen : items.length = rows * columns) (hlt : rows * columns < 2 ^ 64)
    (hr : row < rows) (hc : column < columns) :
    (element items columns row column).Sat (fun a => items[row * columns + column]? = some a) Calm := by
  have hpos := position_lt hr hc
  refine (Sat.failIf fun h => by omega).bind fun _ _ => Sat.okOr fun hnone => ?_
  rw [List.getElem?_eq_none_iff] at hnone
  omega

theorem sat_retain {out : Output} {value : Bml} : (retain out value limits row column).Sat
    (fun out' => out'.values = out.values ++ [value]) Calm :=
  (Sat.okOr fun _ => calm_error _).bind fun _ _ => (Sat.failIf fun _ => calm_error _).bind fun _ _ => rfl

namespace BmlMatrix
variable {m self rhs : BmlMatrix}

theorem sat_chargeAt {value : Bml} {work : Nat} {inner : Option Nat} :
    (chargeAt value work limits row column inner).Sat (fun _ => True) Calm :=
  Sat.mapError (E := fun _ => True) (Sat.iff_forall.2 ⟨fun _ _ => trivial, fun _ _ => trivial⟩) fun _ _ => calm_error _

theorem totalBits_eq_ok {n : Nat} :
    m.totalBits = .ok n ↔ (m.values.map Bml.bitLen).sum < 2 ^ 64 ∧ (m.values.map Bml.bitLen).sum = n := by
  have hsum : ∀ (values : List Bml) (start n : Nat), start < 2 ^ 64 →
      (values.foldlM (fun sum value => okOr (checkedAdd sum value.bitLen) MatrixError.limit) start = .ok n ↔
        start + (values.map Bml.bitLen).sum < 2 ^ 64 ∧ start + (values.map Bml.bitLen).sum = n) := by
    intro values
    induction values with
    | nil =>
      intro start n hstart
      rw [List.foldlM_nil, pure_eq_ok, List.map_nil, List.sum_nil]
      exact ⟨fun h => ⟨hstart, h⟩, fun h => h.2⟩
    | cons v values ih =>
      intro start n hstart
      rw [List.foldlM_cons, bind_eq_ok, List.map_cons, List.sum_cons, ← Nat.add_assoc]
      simp only [okOr_eq_ok, checkedAdd_eq_some]
      constructor
      · rintro ⟨_, ⟨hlt, rfl⟩, hrest⟩
        exact (ih _ n hlt).1 hrest
      · intro hrest
        have hlt : start + v.bitLen < 2 ^ 64 := by omega
        exact ⟨_, ⟨hlt, rfl⟩, (ih _ n hlt).2 hrest⟩
  have h := hsum m.values 0 n (by norm_num)
  rw [Nat.zero_add] at h
  exact h

/-! ### The invariant of a matrix -/

/-- What `validate` checks. -/
structure Within (m : BmlMatrix) (limits : MatrixLimits) : Prop where
  length : m.values.length = m.rows * m.columns
  addressable : m.rows * m.columns < 2 ^ 64
  elements : m.rows * m.columns ≤ limits.maxElements
  bits : ∀ v ∈ m.values, v.bitLen ≤ limits.scalar.maxBits
  countable : (m.values.map Bml.bitLen).sum < 2 ^ 64
  total : (m.values.map Bml.bitLen).sum ≤ limits.maxTotalBits

/-- A matrix within its own limits. -/
def Inv (m : BmlMatrix) : Prop := m.Within m.limits

theorem validate_eq_ok : m.validate limits = .ok () ↔ m.Within limits := by
  simp only [validate, bind_eq_ok, failIf_eq_ok, count_eq_ok, totalBits_eq_ok, not_or, not_lt, not_not]
  constructor
  · rintro ⟨_, ⟨hlt, rfl, hle⟩, -, hlen, _, ⟨hsum, rfl⟩, htotal, hbits⟩
    exact ⟨hlen.symm, hlt, hle, by simpa using hbits, hsum, htotal⟩
  · intro h
    exact ⟨_, ⟨h.addressable, rfl, h.elements⟩, (), h.length.symm, _, ⟨h.countable, rfl⟩, h.total, by simpa using h.bits⟩

theorem new_eq_ok {values : List Bml} : new rows columns values limits = .ok m ↔
    m = { rows, columns, values, limits } ∧ m.Inv := by
  simp only [new, bind_eq_ok, failIf_eq_ok, pure_eq_ok, count_eq_ok, not_not]
  constructor
  · rintro ⟨_, -, -, -, _, hvalidate, rfl⟩
    exact ⟨rfl, validate_eq_ok.1 hvalidate⟩
  · rintro ⟨rfl, hinv⟩
    have h : Within _ _ := hinv
    exact ⟨_, ⟨h.addressable, rfl, h.elements⟩, (), h.length.symm, (), validate_eq_ok.2 h, rfl⟩

theorem sat_new {values : List Bml} : ((new rows columns values limits).mapError Fault.error).Sat
    (fun m => m = { rows, columns, values, limits } ∧ m.Inv) Calm :=
  sat_returned fun _ h => new_eq_ok.1 h

theorem sat_validate : ((m.validate limits).mapError Fault.error).Sat (fun _ => m.Within limits) Calm :=
  sat_returned fun _ h => validate_eq_ok.1 h

theorem sat_count : ((count rows columns limits).mapError Fault.error).Sat (fun n => rows * columns = n) Calm :=
  sat_returned fun _ h => (count_eq_ok.1 h).2.1

/-! ### Access -/

theorem Within.get (h : m.Within limits) (hr : row < m.rows) (hc : column < m.columns) :
    ∃ v, m.values[row * m.columns + column]? = some v ∧ m.get row column = .ok v ∧ m.index row column = .ok v := by
  have hpos := position_lt hr hc
  have hlt := h.addressable
  have hlen := h.length
  obtain ⟨v, hv⟩ : ∃ v, m.values[row * m.columns + column]? = some v :=
    ⟨_, List.getElem?_eq_getElem (by omega)⟩
  have hget : m.get row column = .ok v := by
    simp only [BmlMatrix.get, element, bind_eq_ok, failIf_eq_ok, okOr_eq_ok]
    exact ⟨(), by omega, (), by omega, hv⟩
  exact ⟨v, hv, hget, by rw [index, hget]; rfl⟩

theorem get_eq_ok {v : Bml} (h : m.get row column = .ok v) :
    row < m.rows ∧ column < m.columns ∧ m.values[row * m.columns + column]? = some v := by
  simp only [BmlMatrix.get, element, bind_eq_ok, failIf_eq_ok, okOr_eq_ok, not_or, not_le] at h
  obtain ⟨-, ⟨hr, hc⟩, -, -, hv⟩ := h
  exact ⟨hr, hc, hv⟩

theorem Within.sat_get (h : m.Within limits) : (m.get row column).Sat
    (fun v => row < m.rows ∧ column < m.columns ∧ m.values[row * m.columns + column]? = some v) Calm := by
  refine (Sat.failIf fun _ => calm_error _).bind fun _ hin => ?_
  rw [not_or, not_le, not_le] at hin
  exact (sat_element h.length h.addressable hin.1 hin.2).mono (fun v hv => ⟨hin.1, hin.2, hv⟩) fun _ he => he

/-- The sum after one element is replaced. -/
theorem sum_set {values : List Bml} {i : Nat} {old value : Bml} (h : values[i]? = some old) :
    ((values.set i value).map Bml.bitLen).sum + old.bitLen = (values.map Bml.bitLen).sum + value.bitLen := by
  induction values generalizing i with
  | nil => cases h
  | cons v values ih =>
    cases i with
    | zero =>
      obtain rfl := Option.some.inj h
      simp only [List.set_cons_zero, List.map_cons, List.sum_cons]
      omega
    | succ i =>
      have := ih h
      simp only [List.set_cons_succ, List.map_cons, List.sum_cons]
      omega

/-- A replacement within the budgets keeps the matrix within its limits. -/
theorem Inv.set {old value : Bml} {i : Nat} (h : m.Inv) (hold : m.values[i]? = some old)
    (htotal : m.replaceTotal old value = .ok ()) : Inv { m with values := m.values.set i value } := by
  have hsum : ((m.values.set i value).map Bml.bitLen).sum + old.bitLen = _ := sum_set hold
  simp only [replaceTotal, bind_eq_ok, failIf_eq_ok, okOr_eq_ok, totalBits_eq_ok, checkedAdd_eq_some, not_or, not_lt] at htotal
  obtain ⟨_, ⟨-, rfl⟩, -, hold', _, ⟨hlt, rfl⟩, hbits, hle⟩ := htotal
  refine ⟨by simpa using h.length, h.addressable, h.elements, fun v hv => ?_, ?_, ?_⟩
  · rcases List.mem_or_eq_of_mem_set hv with hv | rfl
    · exact h.bits v hv
    · exact hbits
  · dsimp only
    omega
  · dsimp only
    omega

/-- A replacement that fails changes nothing; one that succeeds returns the old element, changes only its cell and keeps
the matrix within its limits. -/
theorem replace_spec (h : m.Inv) (value : Bml) {r : Except (Fault MatrixError) Bml} {m' : BmlMatrix}
    (hrun : (replace row column value).run m = (r, m')) :
    r ≠ .error .panic ∧ (∀ e, r = .error e → m' = m) ∧
    ∀ old, r = .ok old → row < m.rows ∧ column < m.columns ∧ m.values[row * m.columns + column]? = some old ∧
      m' = { m with values := m.values.set (row * m.columns + column) value } ∧ m'.Inv := by
  have hget : (m.get row column).Sat _ Calm := Within.sat_get h
  rw [replace, Exec.run_get_bind, Exec.run_bind, Exec.run_ofExcept] at hrun
  rcases hold : m.get row column with e | old
  · rw [hold] at hrun
    obtain ⟨rfl, rfl⟩ := Prod.mk.inj hrun
    exact ⟨fun hp => hget.error hold (Except.error.inj hp), fun _ _ => rfl, fun _ hr => by cases hr⟩
  obtain ⟨hr, hc, hv⟩ := hget.ok hold
  rw [hold] at hrun
  dsimp only at hrun
  rw [Exec.run_bind, Exec.run_ofExcept] at hrun
  rcases htotal : m.replaceTotal old value with e | ⟨⟩
  · rw [htotal] at hrun
    obtain ⟨rfl, rfl⟩ := Prod.mk.inj hrun
    exact ⟨fun hp => (by cases hp), fun _ _ => rfl, fun _ hr => by cases hr⟩
  have helement : element m.values m.columns row column = .ok old := by
    obtain ⟨_, -, helement⟩ := bind_eq_ok.1 hold
    exact helement
  rw [htotal] at hrun
  simp only [Except.mapError] at hrun
  rw [Exec.run_bind, Exec.run_ofExcept, helement] at hrun
  obtain ⟨rfl, rfl⟩ := Prod.mk.inj hrun
  refine ⟨fun hp => (by cases hp), fun e he => (by cases he), fun v hr' => ?_⟩
  cases hr'
  exact ⟨hr, hc, hv, rfl, h.set hv htotal⟩

/-! ### The operations -/

/-- The certificates of the elements. -/
def Prepared (m : BmlMatrix) (limits : MatrixLimits) (a : List CertifiedBml) : Prop :=
  List.Forall₂ (fun v c => Bml.certifyExact v limits.scalar = .ok c) m.values a

theorem sat_prepare : (m.prepare limits).Sat (fun a => m.Inv ∧ m.Within limits ∧ Prepared m limits a) Calm := by
  refine sat_validate.bind fun _ hinv => sat_validate.bind fun _ hwithin => ?_
  have hcolumns : ∀ p ∈ m.values.zipIdx, m.columns ≠ 0 := by
    intro p hp h0
    have hlength := hinv.length
    rw [h0, Nat.mul_zero] at hlength
    rw [List.length_eq_zero_iff.1 hlength] at hp
    cases hp
  refine (Sat.mapM_forall (P := fun p c => Bml.certifyExact p.1 limits.scalar = .ok c) fun p hp =>
    sat_atElement p.2 (hcolumns p hp) fun _ h => h).mono (fun a ha => ⟨hinv, hwithin, ?_⟩) fun _ he => he
  rw [Prepared, ← List.zipIdx_map_fst 0 m.values, List.forall₂_map_left_iff]
  exact ha

theorem sat_elementStep {operation : CertifiedBml → CertifiedBml → ExactSynthesisOptions → Except ExactError CertifiedBml}
    {out : Output} {p : (CertifiedBml × CertifiedBml) × Nat} (h : columns ≠ 0) :
    (elementStep columns limits operation out p).Sat (fun _ => True) Calm := by
  refine (sat_atElement p.2 h fun _ _ => trivial).bind fun result _ => ?_
  refine (sat_atElement p.2 h fun _ _ => trivial).bind fun work _ => ?_
  exact (sat_locate h p.2).bind fun _ _ => sat_retain.mono (fun _ _ => trivial) fun _ he => he

/-- The loop of `elementwise` and `scalar_map` divides by the columns only when there are elements. -/
theorem sat_elementLoop {operation : CertifiedBml → CertifiedBml → ExactSynthesisOptions → Except ExactError CertifiedBml}
    {pairs : List (CertifiedBml × CertifiedBml)} (hm : m.Inv) (hlen : pairs.length ≤ m.values.length) :
    (pairs.zipIdx.foldlM (elementStep m.columns limits operation) {}).Sat (fun _ => True) Calm := by
  refine Sat.foldlM (fun out _ p hp => ?_) trivial
  refine sat_elementStep fun h0 => ?_
  have hlength := hm.length
  rw [h0, Nat.mul_zero] at hlength
  rw [List.length_eq_zero_iff.1 (show pairs.length = 0 by omega)] at hp
  cases hp

theorem sat_elementwise (multiply : Bool) : (self.elementwise rhs limits multiply).Sat
    (fun p => p.rows = self.rows ∧ p.columns = self.columns ∧ p.Inv) Calm := by
  refine (Sat.failIf fun _ => calm_error _).bind fun _ _ => ?_
  refine sat_prepare.bind fun a ha => sat_prepare.bind fun b hb => ?_
  obtain ⟨hinv, -, hprepared⟩ := ha
  have hlen := List.Forall₂.length_eq hprepared
  refine (sat_elementLoop hinv (by rw [List.length_zip]; omega)).bind fun out _ => ?_
  exact sat_new.mono (fun p ⟨hp, hinv⟩ => ⟨by rw [hp], by rw [hp], hinv⟩) fun _ he => he

theorem sat_scalarMap {scalar : ExactSynthesisOptions → Except ExactError CertifiedBml} (multiply : Bool) :
    (self.scalarMap scalar limits multiply).Sat (fun p => p.rows = self.rows ∧ p.columns = self.columns ∧ p.Inv) Calm := by
  refine sat_validate.bind fun _ _ => ?_
  have hscalar : ((scalar limits.scalar).mapError fun e => Fault.error (MatrixError.scalarPreparation e)).Sat
      (fun _ => True) Calm :=
    Sat.mapError (E := fun _ => True) (Sat.iff_forall.2 ⟨fun _ _ => trivial, fun _ _ => trivial⟩) fun _ _ => calm_error _
  refine hscalar.bind fun scalar _ => sat_prepare.bind fun a ha => ?_
  obtain ⟨hinv, -, hprepared⟩ := ha
  have hlen := List.Forall₂.length_eq hprepared
  refine (sat_elementLoop hinv (by rw [List.length_map]; omega)).bind fun out _ => ?_
  exact sat_new.mono (fun p ⟨hp, hinv⟩ => ⟨by rw [hp], by rw [hp], hinv⟩) fun _ he => he

/-! ### The product -/

/-- The left-to-right sum of the products of the pairs, built by the checked operations. -/
inductive Sums (options : ExactSynthesisOptions) : List (CertifiedBml × CertifiedBml) → CertifiedBml → Prop
  | single {x y product} : x.checkedMul y options = .ok product → Sums options [(x, y)] product
  | snoc {pairs sum x y product sum'} : Sums options pairs sum → x.checkedMul y options = .ok product →
      sum.checkedAdd product options = .ok sum' → Sums options (pairs ++ [(x, y)]) sum'

/-- The accumulator of a reduction over the pairs. -/
def Accumulates (options : ExactSynthesisOptions) (pairs : List (CertifiedBml × CertifiedBml)) : Option CertifiedBml → Prop
  | none => pairs = []
  | some sum => Sums options pairs sum

/-- The pairs of the first `n` elements of row `row` of `a` and column `column` of `b`. -/
def Pairs (a b : List CertifiedBml) (inners columns row column n : Nat) (pairs : List (CertifiedBml × CertifiedBml)) : Prop :=
  pairs.length = n ∧ ∀ l p, pairs[l]? = some p → a[row * inners + l]? = some p.1 ∧ b[l * columns + column]? = some p.2

/-- The state of a reduction after `n` pairs. -/
def Reduced (options : ExactSynthesisOptions) (a b : List CertifiedBml) (inners columns row column n : Nat)
    (s : Nat × Option CertifiedBml) : Prop :=
  ∃ pairs, Pairs a b inners columns row column n pairs ∧ Accumulates options pairs s.2

/-- What the product puts into a cell. -/
def Cell (options : ExactSynthesisOptions) (a b : List CertifiedBml) (inners columns row column : Nat) (v : Bml) : Prop :=
  if inners = 0 then v = ⟨[88]⟩
  else ∃ pairs sum, Pairs a b inners columns row column inners pairs ∧ Sums options pairs sum ∧ v = sum.term

section product
variable {a b : List CertifiedBml} {inners : Nat}

theorem sat_productStep {s : Nat × Option CertifiedBml} {inner : Nat}
    (ha : a.length = rows * inners) (hb : b.length = inners * columns) (hasize : rows * inners < 2 ^ 64)
    (hbsize : inners * columns < 2 ^ 64) (hr : row < rows) (hc : column < columns) (hi : inner < inners)
    (hs : Reduced limits.scalar a b inners columns row column inner s) :
    (productStep a b inners columns limits row column s inner).Sat
      (Reduced limits.scalar a b inners columns row column (inner + 1)) Calm := by
  obtain ⟨pairs, hpairs, hs⟩ := hs
  have hscalar : ∀ {x : Except ExactError CertifiedBml},
      (x.mapError fun e => Fault.error (MatrixError.scalar row column (some inner) e)).Sat (fun c => x = .ok c) Calm :=
    Sat.mapError (E := fun _ => True) (Sat.iff_forall.2 ⟨fun _ h => h, fun _ _ => trivial⟩) fun _ _ => calm_error _
  refine (sat_element ha hasize hr hi).bind fun x hx => (sat_element hb hbsize hi hc).bind fun y hy => ?_
  have hnext : Pairs a b inners columns row column (inner + 1) (pairs ++ [(x, y)]) := by
    refine ⟨by rw [List.length_append, hpairs.1]; rfl, fun l p hp => ?_⟩
    rcases Nat.lt_trichotomy l inner with hl | rfl | hl
    · rw [List.getElem?_append_left (by rw [hpairs.1]; exact hl)] at hp
      exact hpairs.2 l p hp
    · rw [← hpairs.1, List.getElem?_concat_length] at hp
      obtain rfl := Option.some.inj hp
      exact ⟨hx, hy⟩
    · rw [List.getElem?_eq_none (by rw [List.length_append, hpairs.1]; exact hl)] at hp
      cases hp
  refine hscalar.bind fun product hproduct => sat_chargeAt.bind fun work _ => ?_
  rcases hacc : s.2 with _ | previous
  · rw [hacc] at hs
    obtain rfl : pairs = [] := hs
    exact ⟨_, hnext, .single hproduct⟩
  · rw [hacc] at hs
    refine hscalar.bind fun sum hsum => sat_chargeAt.bind fun work _ => ?_
    exact ⟨_, hnext, .snoc hs hproduct hsum⟩

theorem zero_code : Bml.fromU64 88 = .ok ⟨[88]⟩ := by decide

/-- One cell is appended to the output. -/
theorem sat_productCell {out : Output} (ha : a.length = rows * inners) (hb : b.length = inners * columns)
    (hasize : rows * inners < 2 ^ 64) (hbsize : inners * columns < 2 ^ 64) (hr : row < rows) (hc : column < columns) :
    (productCell a b inners columns limits row out column).Sat
      (fun out' => ∃ v, out'.values = out.values ++ [v] ∧ Cell limits.scalar a b inners columns row column v) Calm := by
  have hloop : ((List.range inners).foldlM (productStep a b inners columns limits row column) (out.work, none)).Sat
      (Reduced limits.scalar a b inners columns row column inners) Calm :=
    Sat.foldlM_range (fun n hn s hs => sat_productStep ha hb hasize hbsize hr hc hn hs)
      ⟨[], ⟨rfl, fun l p hp => by cases hp⟩, rfl⟩
  refine hloop.bind ?_
  rintro ⟨work, _ | sum⟩ ⟨pairs, hpairs, hacc⟩
  · obtain rfl : pairs = [] := hacc
    have hinners : inners = 0 := hpairs.1.symm
    rw [zero_code]
    refine sat_chargeAt.bind fun work _ => sat_retain.mono (fun out' h => ⟨_, h, ?_⟩) fun _ he => he
    rw [Cell, if_pos hinners]
  · refine sat_retain.mono (fun out' h => ⟨_, h, ?_⟩) fun _ he => he
    have hinners : inners ≠ 0 := by
      rintro rfl
      rw [List.length_eq_zero_iff.1 hpairs.1] at hacc
      generalize hp : ([] : List (CertifiedBml × CertifiedBml)) = pairs at hacc
      cases hacc with
      | single => cases hp
      | snoc => simp at hp
    rw [Cell, if_neg hinners]
    exact ⟨pairs, sum, hpairs, hacc, rfl⟩

/-- The first `n` cells of the output, in row-major order. -/
def Filled (options : ExactSynthesisOptions) (a b : List CertifiedBml) (inners columns n : Nat) (out : Output) : Prop :=
  out.values.length = n ∧ ∀ q v, out.values[q]? = some v → Cell options a b inners columns (q / columns) (q % columns) v

theorem Filled.snoc {out out' : Output} {v : Bml} (h : Filled limits.scalar a b inners columns (row * columns + column) out)
    (hc : column < columns) (hv : Cell limits.scalar a b inners columns row column v)
    (hout : out'.values = out.values ++ [v]) :
    Filled limits.scalar a b inners columns (row * columns + (column + 1)) out' := by
  have hdiv : (row * columns + column) / columns = row := by
    rw [Nat.mul_comm, Nat.mul_add_div (by omega), Nat.div_eq_of_lt hc, Nat.add_zero]
  have hmod : (row * columns + column) % columns = column := by
    rw [Nat.mul_comm, Nat.mul_add_mod, Nat.mod_eq_of_lt hc]
  rw [Filled, hout]
  refine ⟨by rw [List.length_append, h.1]; rfl, fun q w hw => ?_⟩
  rcases Nat.lt_trichotomy q (row * columns + column) with hq | rfl | hq
  · rw [List.getElem?_append_left (by rw [h.1]; exact hq)] at hw
    exact h.2 q w hw
  · rw [← h.1, List.getElem?_concat_length] at hw
    rw [hdiv, hmod]
    exact Option.some.inj hw ▸ hv
  · rw [List.getElem?_eq_none (by rw [List.length_append, h.1]; exact hq)] at hw
    cases hw

theorem sat_productLoop (ha : a.length = rows * inners) (hb : b.length = inners * columns)
    (hasize : rows * inners < 2 ^ 64) (hbsize : inners * columns < 2 ^ 64) :
    ((List.range rows).foldlM (fun out row =>
      (List.range columns).foldlM (productCell a b inners columns limits row) out) {}).Sat
      (Filled limits.scalar a b inners columns (rows * columns)) Calm := by
  refine Sat.foldlM_range (I := fun row out => Filled limits.scalar a b inners columns (row * columns) out)
    (fun row hr out hout => ?_) ?_
  · rw [Nat.succ_mul]
    refine Sat.foldlM_range (I := fun column out => Filled limits.scalar a b inners columns (row * columns + column) out)
      (fun column hc out hout => ?_) hout
    refine (sat_productCell ha hb hasize hbsize hr hc).mono (fun out' h => ?_) fun _ he => he
    obtain ⟨v, hv, hcell⟩ := h
    exact hout.snoc hc hcell hv
  · rw [Nat.zero_mul]
    exact ⟨rfl, fun q v hv => by cases hv⟩

end product

/-- The product has the outer dimensions, and every cell is the reduction of its row and column. -/
theorem sat_matmulWithLimits : (self.matmulWithLimits rhs limits).Sat (fun p => p.rows = self.rows ∧
    p.columns = rhs.columns ∧ p.Inv ∧ self.Within limits ∧ rhs.Within limits ∧ self.columns = rhs.rows ∧ (p.rows * p.columns ≠ 0 → ∃ a b, Prepared self limits a ∧
      Prepared rhs limits b ∧ ∀ i < p.rows, ∀ j < p.columns, ∃ v, p.index i j = .ok v ∧
        Cell limits.scalar a b self.columns rhs.columns i j v)) Calm := by
  refine (Sat.failIf fun _ => calm_error _).bind fun _ hshape => ?_
  rw [not_not] at hshape
  refine sat_count.bind fun len hlen => sat_validate.bind fun _ hself => sat_validate.bind fun _ hrhs => ?_
  split
  · rename_i h0
    refine sat_new.mono (fun p ⟨hp, hinv⟩ => ⟨by rw [hp], by rw [hp], hinv, hself, hrhs, hshape, fun hne => ?_⟩) fun _ he => he
    rw [hp] at hne
    exact absurd (hlen.trans h0) hne
  · refine sat_prepare.bind fun a ha => sat_prepare.bind fun b hb => ?_
    obtain ⟨-, -, ha⟩ := ha
    obtain ⟨-, -, hb⟩ := hb
    have halen : a.length = self.rows * self.columns := by rw [← List.Forall₂.length_eq ha, hself.length]
    have hblen : b.length = self.columns * rhs.columns := by rw [← List.Forall₂.length_eq hb, hrhs.length, hshape]
    refine (sat_productLoop halen hblen hself.addressable (hshape ▸ hrhs.addressable)).bind fun out hout => ?_
    refine sat_new.mono (fun p ⟨hp, hinv⟩ => ⟨by rw [hp], by rw [hp], hinv, hself, hrhs, hshape, fun _ => ⟨a, b, ha, hb, ?_⟩⟩) fun _ he => he
    intro i hi j hj
    obtain ⟨v, hv, -, hindex⟩ := Within.get hinv hi hj
    refine ⟨v, hindex, ?_⟩
    rw [hp] at hi hj hv
    have hcell := hout.2 _ v hv
    rwa [Nat.mul_comm i, Nat.mul_add_div (by omega), Nat.div_eq_of_lt hj, Nat.add_zero, Nat.mul_add_mod,
      Nat.mod_eq_of_lt hj] at hcell

/-! ### The value of a product -/

section value
variable {options : ExactSynthesisOptions}

theorem certified_certify {d : ExactDerivation} {c : CertifiedBml} (h : d.certify options = .ok c) : c.Certified :=
  ⟨d, options, .inl h⟩

theorem certified_certifyExact {v : Bml} {c : CertifiedBml} (h : v.certifyExact options = .ok c) :
    c.Certified ∧ c.term = v := by
  obtain ⟨_, -, h⟩ := bind_eq_ok.1 h
  obtain ⟨s, -, h⟩ := bind_eq_ok.1 h
  split at h
  · cases h
  obtain ⟨_, -, h⟩ := bind_eq_ok.1 h
  obtain ⟨⟨r, root⟩, -, h⟩ := bind_eq_ok.1 h
  obtain ⟨result, hresult, h⟩ := bind_eq_ok.1 h
  obtain ⟨_, hterm, h⟩ := bind_eq_ok.1 h
  obtain rfl := pure_eq_ok.1 h
  exact ⟨certified_certify (mapError_eq_ok.1 hresult), not_not.1 (failIf_eq_ok.1 hterm)⟩

theorem certified_binary {a b c : CertifiedBml} {operation : Operation} (h : a.binary b operation options = .ok c) :
    c.Certified := by
  simp only [CertifiedBml.binary, bind_eq_ok] at h
  obtain ⟨_, -, _, -, _, -, right, -, _, -, ⟨steps, step⟩, -, ⟨steps', root⟩, -, h⟩ := h
  exact certified_certify h

/-- The target of a certificate is determined by its term. -/
theorem target_unique {a b : CertifiedBml} (ha : a.Certified) (hb : b.Certified) (h : a.term = b.term) :
    a.target = b.target := by
  have hsound : ∀ {c : CertifiedBml}, c.Certified → ∃ t, Sound (c.term, c.target) t := by
    rintro c ⟨d, options, h⟩
    rcases h with h | ⟨term, target, h⟩
    · exact ExactDerivation.replay_sound (ExactDerivation.certify_eq_ok.1 h).1
    · obtain ⟨hreplay, rfl⟩ := ExactDerivation.verify_eq_ok.1 h
      exact ExactDerivation.replay_sound hreplay
  obtain ⟨t, ht⟩ := hsound ha
  obtain ⟨u, hu⟩ := hsound hb
  obtain rfl : t = u := ht.encodes.tree_unique (h ▸ hu.encodes)
  exact (Prod.mk.inj (ht.ext hu)).2

/-- The target of a left-to-right sum is the sum of the products of the targets. -/
theorem Sums.value {pairs : List (CertifiedBml × CertifiedBml)} {sum : CertifiedBml} (h : Sums options pairs sum)
    (hc : ∀ p ∈ pairs, p.1.Certified ∧ p.2.Certified) :
    sum.Certified ∧ sum.target.toRat = (pairs.map fun p => p.1.target.toRat * p.2.target.toRat).sum := by
  have hmul : ∀ {x y product : CertifiedBml}, x.Certified → y.Certified → x.checkedMul y options = .ok product →
      product.target.toRat = x.target.toRat * y.target.toRat := by
    intro x y product hx hy h
    have hcomputes : CertifiedBml.Computes options (Operation.apply .mul x.target.toRat y.target.toRat) _ :=
      CertifiedBml.computes_binary hx hy fun h => by cases h.1
    exact (hcomputes.ok h).2.2
  induction h with
  | single h =>
    obtain ⟨hx, hy⟩ := hc _ (List.mem_singleton.2 rfl)
    rw [List.map_singleton, List.sum_singleton]
    exact ⟨certified_binary h, hmul hx hy h⟩
  | snoc _ hproduct hsum ih =>
    obtain ⟨hcs, hvalue⟩ := ih fun p hp => hc p (List.mem_append_left _ hp)
    obtain ⟨hx, hy⟩ := hc _ (List.mem_append_right _ (List.mem_singleton.2 rfl))
    have hcomputes : CertifiedBml.Computes options (Operation.apply .add _ _) _ :=
      CertifiedBml.computes_binary hcs (certified_binary hproduct) fun h => by cases h.1
    rw [List.map_append, List.sum_append, List.map_singleton, List.sum_singleton, ← hvalue, ← hmul hx hy hproduct]
    exact ⟨certified_binary hsum, (hcomputes.ok hsum).2.2⟩

/-- Row `i` of the left operand and column `j` of the right one, certified and summed from left to right, with the tree of
the sum in the cell. -/
def CellSum (self rhs p : BmlMatrix) (limits : MatrixLimits) (i j : Nat) : Prop :=
  ∃ (x y : Fin self.columns → CertifiedBml) (sum : CertifiedBml),
    (∀ l : Fin self.columns, ∃ v, self.index i l = .ok v ∧ v.certifyExact limits.scalar = .ok (x l)) ∧
    (∀ l : Fin self.columns, ∃ v, rhs.index l j = .ok v ∧ v.certifyExact limits.scalar = .ok (y l)) ∧
    Sums limits.scalar (List.ofFn fun l => (x l, y l)) sum ∧ p.index i j = .ok sum.term ∧
    sum.target.toRat = ∑ l, (x l).target.toRat * (y l).target.toRat ∧
    ∀ options c, sum.term.certifyExact options = .ok c → c.target = sum.target

theorem Prepared.certified {m : BmlMatrix} {a : List CertifiedBml} {c : CertifiedBml} (h : Prepared m limits a)
    (hm : m.Within limits) (hr : row < m.rows) (hc : column < m.columns) (hget : a[row * m.columns + column]? = some c) :
    ∃ v, m.index row column = .ok v ∧ v.certifyExact limits.scalar = .ok c := by
  obtain ⟨v, hv, -, hindex⟩ := hm.get hr hc
  obtain ⟨c', hc', hcertify⟩ := forall₂_getElem? h hv
  rw [hget] at hc'
  cases hc'
  exact ⟨v, hindex, hcertify⟩

theorem cellSum_of_cell {p : BmlMatrix} {a b : List CertifiedBml} {i j : Nat} {v : Bml} (ha : Prepared self limits a)
    (hb : Prepared rhs limits b) (hself : self.Within limits) (hrhs : rhs.Within limits) (hshape : self.columns = rhs.rows)
    (hi : i < self.rows) (hj : j < rhs.columns) (hv : p.index i j = .ok v) (hk : self.columns ≠ 0)
    (hcell : Cell limits.scalar a b self.columns rhs.columns i j v) : CellSum self rhs p limits i j := by
  rw [Cell, if_neg hk] at hcell
  obtain ⟨pairs, sum, ⟨hlen, hpairs⟩, hsum, rfl⟩ := hcell
  have hofFn : List.ofFn (fun l : Fin self.columns => pairs.get (l.cast hlen.symm)) = pairs := by
    refine List.ext_getElem (by simp [hlen]) fun l h₁ h₂ => by simp
  have hx : ∀ l : Fin self.columns, ∃ v, self.index i l = .ok v ∧
      v.certifyExact limits.scalar = .ok (pairs.get (l.cast hlen.symm)).1 := fun l =>
    ha.certified hself hi l.isLt (hpairs l _ (List.getElem?_eq_getElem (by omega))).1
  have hy : ∀ l : Fin self.columns, ∃ v, rhs.index l j = .ok v ∧
      v.certifyExact limits.scalar = .ok (pairs.get (l.cast hlen.symm)).2 := fun l =>
    hb.certified hrhs (hshape ▸ l.isLt) hj (hpairs l _ (List.getElem?_eq_getElem (by omega))).2
  have hcertified : ∀ p ∈ pairs, p.1.Certified ∧ p.2.Certified := by
    intro p hp
    rw [← hofFn, List.mem_ofFn] at hp
    obtain ⟨l, rfl⟩ := hp
    obtain ⟨_, -, hcx⟩ := hx l
    obtain ⟨_, -, hcy⟩ := hy l
    exact ⟨(certified_certifyExact hcx).1, (certified_certifyExact hcy).1⟩
  obtain ⟨hcsum, hvalue⟩ := hsum.value hcertified
  refine ⟨_, _, sum, hx, hy, hofFn.symm ▸ hsum, hv, ?_, fun options c hc => ?_⟩
  · rw [hvalue]
    conv_lhs => rw [← hofFn]
    rw [List.map_ofFn, List.sum_ofFn]
    rfl
  · obtain ⟨hcc, hterm⟩ := certified_certifyExact hc
    exact target_unique hcc hcsum hterm

/-- A product that is returned has the outer dimensions. With inner elements each cell is the left-to-right sum of checked
products, with the exact value; without any, each cell is the tree of zero. -/
theorem matmul_correct {p : BmlMatrix} (h : self.matmulWithLimits rhs limits = .ok p) :
    p.rows = self.rows ∧ p.columns = rhs.columns ∧
    (∀ i < self.rows, ∀ j < rhs.columns, if self.columns = 0 then p.index i j = .ok ⟨[88]⟩ else CellSum self rhs p limits i j) ∧
    (⟨[88]⟩ : Bml).Encodes Expansion.zero := by
  obtain ⟨hrows, hcolumns, -, hself, hrhs, hshape, hcells⟩ := sat_matmulWithLimits.ok h
  refine ⟨hrows, hcolumns, fun i hi j hj => ?_, by decide, by decide⟩
  have hpos := position_lt hi hj
  obtain ⟨a, b, ha, hb, hcells⟩ := hcells (by rw [hrows, hcolumns]; omega)
  obtain ⟨v, hv, hcell⟩ := hcells i (hrows ▸ hi) j (hcolumns ▸ hj)
  split
  · rename_i h0
    rw [Cell, if_pos h0] at hcell
    exact hcell ▸ hv
  · rename_i hk
    exact cellSum_of_cell ha hb hself hrhs hshape hi hj hv hk hcell

/-- The matrix `[1]`, and its square. -/
def unit : BmlMatrix := { rows := 1, columns := 1, values := [.one], limits := {} }

def unitSquare : BmlMatrix := { rows := 1, columns := 1, values := [⟨[8362949246387904]⟩], limits := {} }

theorem unit_square : unit.matmulWithLimits unit {} = .ok unitSquare := by decide +kernel

theorem matmul_correct_unit : unitSquare.rows = 1 ∧ CellSum unit unit unitSquare {} 0 0 := by
  obtain ⟨hrows, -, hcells, -⟩ := matmul_correct unit_square
  exact ⟨hrows, hcells 0 (by decide) 0 (by decide)⟩

end value

/-! ### The generalized product -/

section callbacks
variable {σ : Type} {combine accumulate : Callback σ}

theorem ends_called {x : Exec ExactError σ Bml} {error : ExactError → MatrixError} :
    (called x error).Ends (fun _ => True) Calm := by
  intro s
  exact Sat.mapError (E := fun _ => True) (Sat.iff_forall.2 ⟨fun _ _ => trivial, fun _ _ => trivial⟩) fun _ _ => calm_error _

theorem Within.sat_index (h : m.Within limits) (hr : row < m.rows) (hc : column < m.columns) :
    (m.index row column).Sat (fun _ => True) Calm := by
  obtain ⟨v, -, -, hindex⟩ := h.get hr hc
  rw [hindex]
  exact trivial

theorem ends_generalizedStep {s : Nat × Option Bml} {inner : Nat} {limits' : MatrixLimits} (hself : self.Within limits')
    (hrhs : rhs.Within limits') (hshape : self.columns = rhs.rows) (hr : row < self.rows) (hc : column < rhs.columns)
    (hi : inner < self.columns) :
    (generalizedStep self rhs combine accumulate limits row column s inner).Ends (fun _ => True) Calm := by
  refine (Exec.Ends.ofExcept (hself.sat_index hr hi)).bind fun x _ => ?_
  refine (Exec.Ends.ofExcept (hrhs.sat_index (hshape ▸ hi) hc)).bind fun y _ => ?_
  refine ends_called.bind fun product _ => (Exec.Ends.ofExcept sat_chargeAt).bind fun work _ => ?_
  rcases s.2 with _ | previous
  · exact .pure trivial
  · exact ends_called.bind fun sum _ => (Exec.Ends.ofExcept sat_chargeAt).bind fun work _ => .pure trivial

theorem ends_generalizedCell {init : ReductionInit} {out : Output} {limits' : MatrixLimits} (hself : self.Within limits')
    (hrhs : rhs.Within limits') (hshape : self.columns = rhs.rows) (hr : row < self.rows) (hc : column < rhs.columns) :
    (generalizedCell self rhs init combine accumulate limits row out column).Ends (fun _ => True) Calm := by
  refine Exec.Ends.bind (Q := fun _ => True) ?_ fun work _ => ?_
  · split
    · exact .ofExcept sat_chargeAt
    · exact .pure trivial
  have hloop : ((List.range self.columns).foldlM (generalizedStep self rhs combine accumulate limits row column)
      (work, init.initial self.columns)).Ends (fun _ => True) Calm :=
    Exec.Ends.foldlM (fun s _ inner hi => ends_generalizedStep hself hrhs hshape hr hc (List.mem_range.1 hi)) trivial
  refine Exec.Ends.bind hloop ?_
  rintro ⟨work, accumulator⟩ -
  refine (Exec.Ends.ofExcept (Sat.okOr fun _ => calm_error _)).bind fun value _ => ?_
  exact .ofExcept (sat_retain.mono (fun _ _ => trivial) fun _ he => he)

theorem ends_generalizedProduct {init : ReductionInit} :
    (generalizedProduct self rhs init limits combine accumulate).Ends
      (fun p => p.rows = self.rows ∧ p.columns = rhs.columns ∧ p.Inv) Calm := by
  have hnew : ∀ values : List Bml, ((new self.rows rhs.columns values limits).mapError Fault.error).Sat
      (fun p => p.rows = self.rows ∧ p.columns = rhs.columns ∧ p.Inv) Calm := fun values =>
    sat_new.mono (fun p ⟨hp, hinv⟩ => ⟨by rw [hp], by rw [hp], hinv⟩) fun _ he => he
  refine (Exec.Ends.ofExcept (Sat.failIf fun _ => calm_error _)).bind fun _ hshape => ?_
  rw [not_not] at hshape
  refine (Exec.Ends.ofExcept sat_validate).bind fun _ _ => (Exec.Ends.ofExcept sat_validate).bind fun _ _ => ?_
  refine (Exec.Ends.ofExcept sat_validate).bind fun _ hself => (Exec.Ends.ofExcept sat_validate).bind fun _ hrhs => ?_
  refine (Exec.Ends.ofExcept sat_count).bind fun len _ => ?_
  refine (Exec.Ends.ofExcept (Sat.failIf fun _ => calm_error _)).bind fun _ _ => ?_
  split
  · exact .ofExcept (hnew [])
  · have hloop : ((List.range self.rows).foldlM (fun out row => (List.range rhs.columns).foldlM
        (generalizedCell self rhs init combine accumulate limits row) out) {} : Exec (Fault MatrixError) σ Output).Ends
        (fun _ => True) Calm :=
      Exec.Ends.foldlM (fun out _ row hr => Exec.Ends.foldlM (fun out _ column hc =>
        ends_generalizedCell hself hrhs hshape (List.mem_range.1 hr) (List.mem_range.1 hc)) trivial) trivial
    exact hloop.bind fun out _ => .ofExcept (hnew out.values)

end callbacks

/-! ### Reachable matrices -/

/-- The matrices that the public operations build. -/
inductive Reachable : BmlMatrix → Prop
  | new {rows columns values limits m} : new rows columns values limits = .ok m → Reachable m
  | replace {m m' row column value r} : Reachable m → (BmlMatrix.replace row column value).run m = (r, m') → Reachable m'
  | add {a b limits m} : Reachable a → Reachable b → a.addWithLimits b limits = .ok m → Reachable m
  | hadamard {a b limits m} : Reachable a → Reachable b → a.hadamardWithLimits b limits = .ok m → Reachable m
  | addScalar {a scalar limits m} : Reachable a → a.addScalar scalar limits = .ok m → Reachable m
  | scale {a scalar limits m} : Reachable a → a.scale scalar limits = .ok m → Reachable m
  | matmul {a b limits m} : Reachable a → Reachable b → a.matmulWithLimits b limits = .ok m → Reachable m
  | generalizedProduct {σ : Type} {a b init limits m} {combine accumulate : Callback σ} {s s' : σ} : Reachable a →
      Reachable b → (a.generalizedProduct b init limits combine accumulate).run s = (.ok m, s') → Reachable m

theorem Reachable.inv (h : Reachable m) : m.Inv := by
  induction h with
  | new h => exact (new_eq_ok.1 h).2
  | @replace m m' row column value r _ hrun ih =>
    obtain ⟨-, herror, hok⟩ := replace_spec ih value hrun
    cases r with
    | error e => exact herror e rfl ▸ ih
    | ok old => exact (hok old rfl).2.2.2.2
  | add _ _ h => exact ((sat_elementwise false).ok h).2.2
  | hadamard _ _ h => exact ((sat_elementwise true).ok h).2.2
  | addScalar _ h => exact ((sat_scalarMap false).ok h).2.2
  | scale _ h => exact ((sat_scalarMap true).ok h).2.2
  | matmul _ _ h => exact (sat_matmulWithLimits.ok h).2.2.1
  | @generalizedProduct σ a b init limits m combine accumulate s s' _ _ hrun =>
    have hends : ((a.generalizedProduct b init limits combine accumulate).run s).1.Sat _ Calm := ends_generalizedProduct s
    rw [hrun] at hends
    exact hends.2.2

/-- No operation on matrices panics, whatever its limits, scalar and callbacks are. -/
def NeverPanics (a b : BmlMatrix) : Prop :=
  ∀ limits scalar, a.addWithLimits b limits ≠ .error .panic ∧ a.hadamardWithLimits b limits ≠ .error .panic ∧
    a.addScalar scalar limits ≠ .error .panic ∧ a.scale scalar limits ≠ .error .panic ∧
    a.matmulWithLimits b limits ≠ .error .panic ∧
    ∀ (σ : Type) (init : ReductionInit) (combine accumulate : Callback σ) (s : σ),
      ((a.generalizedProduct b init limits combine accumulate).run s).1 ≠ .error .panic

theorem neverPanics (a b : BmlMatrix) : NeverPanics a b := by
  have hcalm : ∀ {x : MatrixResult BmlMatrix} {Q : BmlMatrix → Prop}, x.Sat Q Calm → x ≠ .error .panic :=
    fun hx h => hx.error h rfl
  intro limits scalar
  exact ⟨hcalm (sat_elementwise false), hcalm (sat_elementwise true), hcalm (sat_scalarMap false),
    hcalm (sat_scalarMap true), hcalm sat_matmulWithLimits, fun σ init combine accumulate s => hcalm (ends_generalizedProduct s)⟩

/-- A reachable matrix is within its own limits; a replacement changes exactly its cell or nothing; the elements inside the
shape are found; and no operation on reachable matrices panics. -/
theorem representation_invariant (h : Reachable m) :
    (m.values.length = m.rows * m.columns ∧ m.rows * m.columns ≤ m.limits.maxElements ∧
      (∀ v ∈ m.values, v.bitLen ≤ m.limits.scalar.maxBits) ∧ (m.values.map Bml.bitLen).sum ≤ m.limits.maxTotalBits) ∧
    (∀ row column value r m', (replace row column value).run m = (r, m') →
      r ≠ .error .panic ∧ (∀ e, r = .error e → m' = m) ∧ ∀ old, r = .ok old → row < m.rows ∧ column < m.columns ∧
        m.values[row * m.columns + column]? = some old ∧
        m' = { m with values := m.values.set (row * m.columns + column) value }) ∧
    (∀ row < m.rows, ∀ column < m.columns, ∃ v, m.values[row * m.columns + column]? = some v ∧
      m.get row column = .ok v ∧ m.index row column = .ok v) ∧
    ∀ b, Reachable b → NeverPanics m b := by
  have hinv := h.inv
  refine ⟨⟨hinv.length, hinv.elements, hinv.bits, hinv.total⟩, fun row column value r m' hrun => ?_,
    fun row hr column hc => hinv.get hr hc, fun b _ => neverPanics m b⟩
  obtain ⟨hcalm, herror, hok⟩ := replace_spec hinv value hrun
  exact ⟨hcalm, herror, fun old hold => ⟨(hok old hold).1, (hok old hold).2.1, (hok old hold).2.2.1, (hok old hold).2.2.2.1⟩⟩

theorem reachable_unit : Reachable unit := .new (new_eq_ok.2 ⟨rfl, validate_eq_ok.1 (by decide)⟩)

theorem representation_invariant_unit : NeverPanics unit unit ∧ unit.index 0 0 = .ok .one := by
  obtain ⟨-, -, hget, hpanic⟩ := representation_invariant reachable_unit
  obtain ⟨v, hv, -, hindex⟩ := hget 0 (by decide) 0 (by decide)
  cases hv
  exact ⟨hpanic unit reachable_unit, hindex⟩

end BmlMatrix
end BmlSys
