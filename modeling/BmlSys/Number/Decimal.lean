import BmlSys.Number.ExactSpec

/-!
# The decimal grammar (`ExactRational::from_decimal_str`)

`Decimal` is a decimal of `[+-]?[0-9]+(\.[0-9]+)?` with its text and its value. The scanning loop accepts the texts of
decimals and no others (`split_of_scan`, `scan_decimal`); its digits accumulate to the value; and when the magnitudes fit
their budget, twice that many steps suffice for the reduction (`gcd_isOk`).
-/

namespace BmlSys
open Limbs Except

namespace ExactRational
open Exact

/-! ### Digits -/

/-- The integer that a list of ASCII digits writes. -/
def digitsVal (digits : List UInt8) : Nat := digits.foldl (fun n c => n * 10 + (c - 48).toNat) 0

theorem foldl_digits (digits : List UInt8) (n : Nat) :
    digits.foldl (fun n c => n * 10 + (c - 48).toNat) n = n * 10 ^ digits.length + digitsVal digits := by
  induction digits generalizing n with
  | nil => simp [digitsVal]
  | cons c digits ih =>
    have hcons : digitsVal (c :: digits) = (0 * 10 + (c - 48).toNat) * 10 ^ digits.length + digitsVal digits := by
      rw [← ih, digitsVal, List.foldl_cons]
    rw [List.foldl_cons, ih, hcons, List.length_cons, pow_succ]
    ring

theorem digitsVal_append (xs ys : List UInt8) :
    digitsVal (xs ++ ys) = digitsVal xs * 10 ^ ys.length + digitsVal ys := by
  rw [digitsVal, List.foldl_append, foldl_digits]
  rfl

theorem digitsVal_append_le (xs ys : List UInt8) : digitsVal xs ≤ digitsVal (xs ++ ys) := by
  rw [digitsVal_append]
  exact (Nat.le_mul_of_pos_right _ (by positivity)).trans (Nat.le_add_right _ _)

/-- The loop over the digits, and the one over the places of the fraction, which adds zeros. -/
theorem foldlM_mulAddSmall_spec {α : Type} {digit : α → UInt64} {max : Nat} {ws : List UInt64} (l : List α)
    (hn : Normalized ws) :
    (∀ r, l.foldlM (fun words a => mulAddSmall words 10 (digit a) max) ws = .ok r →
      Normalized r ∧ val r = l.foldl (fun n a => n * 10 + (digit a).toNat) (val ws)) ∧
    ((l.foldl (fun n a => n * 10 + (digit a).toNat) (val ws)).size ≤ max →
      ∃ r, l.foldlM (fun words a => mulAddSmall words 10 (digit a) max) ws = .ok r) := by
  induction l generalizing ws with
  | nil => exact ⟨fun r hr => pure_eq_ok.1 hr ▸ ⟨hn, rfl⟩, fun _ => ⟨ws, rfl⟩⟩
  | cons a l ih =>
    have hstep : ∀ {w : List UInt64}, mulAddSmall ws 10 (digit a) max = .ok w →
        Normalized w ∧ val w = val ws * 10 + (digit a).toNat :=
      fun hw => have h := mulAddSmall_ok hn (by decide) hw; ⟨h.1, h.2.1⟩
    refine ⟨fun r hr => ?_, fun hsize => ?_⟩
    · rw [List.foldlM_cons] at hr
      obtain ⟨w, hw, hr⟩ := bind_eq_ok.1 hr
      obtain ⟨hwn, hwv⟩ := hstep hw
      obtain ⟨hrn, hrv⟩ := (ih hwn).1 r hr
      exact ⟨hrn, by rw [hrv, hwv, List.foldl_cons]⟩
    · rw [List.foldl_cons] at hsize
      have hmono : ∀ (l : List α) (n : Nat), n ≤ l.foldl (fun n a => n * 10 + (digit a).toNat) n := by
        intro l
        induction l with
        | nil => exact fun n => le_rfl
        | cons a l ih => exact fun n => le_trans (show n ≤ n * 10 + (digit a).toNat by omega) (ih _)
      obtain ⟨w, hw⟩ := @mulAddSmall_isOk ws 10 (digit a) max hn (by decide)
        ((Nat.size_le_size (hmono l _)).trans hsize)
      obtain ⟨hwn, hwv⟩ := hstep hw
      obtain ⟨r, hr⟩ := (ih hwn).2 (hwv ▸ hsize)
      exact ⟨r, by rw [List.foldlM_cons]; exact bind_eq_ok.2 ⟨w, hw, hr⟩⟩

/-! ### The grammar -/

/-- A decimal `[+-]?[0-9]+(\.[0-9]+)?`. -/
structure Decimal where
  sign : Option UInt8
  whole : List UInt8
  fraction : Option (List UInt8)
  sign_mem : ∀ c ∈ sign, c = 43 ∨ c = 45
  whole_ne : whole ≠ []
  whole_digits : ∀ c ∈ whole, isAsciiDigit c = true
  fraction_ne : fraction ≠ some []
  fraction_digits : ∀ f ∈ fraction, ∀ c ∈ f, isAsciiDigit c = true

namespace Decimal
variable (d : Decimal)

/-- The places after the point. -/
def places : List UInt8 := d.fraction.getD []

/-- The text without its sign. -/
def body : List UInt8 := d.whole ++ d.fraction.elim [] (46 :: ·)

def text : List UInt8 := d.sign.toList ++ d.body

def digits : List UInt8 := d.whole ++ d.places

def value : ℚ := (if d.sign = some 45 then -1 else 1) * (digitsVal d.whole + digitsVal d.places / 10 ^ d.places.length)

end Decimal

/-! ### The scanning loop -/

/-- The counters after `k` more digits. -/
def Scan.advance (s : Scan) (k : Nat) : Scan :=
  if s.point then { s with digits := s.digits + k, fraction := s.fraction + k }
  else { s with digits := s.digits + k, whole := s.whole + k }

theorem digit_ne_point {c : UInt8} (h : isAsciiDigit c = true) : c ≠ 46 := by
  rintro rfl
  revert h
  decide

theorem advance_advance (s : Scan) (j k : Nat) : (s.advance j).advance k = s.advance (j + k) := by
  rw [Scan.advance, Scan.advance, Scan.advance]
  rcases s with ⟨_ | _, whole, fraction, digits⟩
  · simp [Nat.add_assoc]
  · simp [Nat.add_assoc]

@[simp] theorem advance_digits (s : Scan) (k : Nat) : (s.advance k).digits = s.digits + k := by
  rw [Scan.advance]
  split <;> rfl

@[simp] theorem advance_point (s : Scan) (k : Nat) : (s.advance k).point = s.point := by
  rw [Scan.advance]
  split <;> rfl

theorem scan_digit {max : Nat} {c : UInt8} {body : List UInt8} {s : Scan} (hc : isAsciiDigit c = true)
    (hmax : s.digits + 1 ≤ max) : scan max (c :: body) s = scan max body (s.advance 1) := by
  rw [scan, if_neg fun h => digit_ne_point hc h.1, if_neg (by simp [hc]), if_neg (by omega), Scan.advance]
  split <;> rfl

theorem scan_digits {max : Nat} {ds rest : List UInt8} {s : Scan} (hds : ∀ c ∈ ds, isAsciiDigit c = true)
    (hmax : s.digits + ds.length ≤ max) : scan max (ds ++ rest) s = scan max rest (s.advance ds.length) := by
  induction ds generalizing s with
  | nil => simp [Scan.advance]
  | cons c ds ih =>
    rw [List.length_cons] at hmax
    rw [List.cons_append, scan_digit (hds c List.mem_cons_self) (by omega),
      ih (fun b hb => hds b (List.mem_cons_of_mem _ hb)) (by rw [advance_digits]; omega), advance_advance, List.length_cons,
      Nat.add_comm 1]

/-- The byte that an accepting scan has read, when it is no point. -/
theorem digit_of_scan {max : Nat} {c : UInt8} {body : List UInt8} {s s' : Scan}
    (hpoint : ¬ (c = 46 ∧ s.point = false ∧ 0 < s.whole)) (h : scan max (c :: body) s = .ok s') :
    isAsciiDigit c = true ∧ scan max body (s.advance 1) = .ok s' := by
  have hscan := h
  rw [scan, if_neg hpoint] at h
  split at h
  · cases h
  rename_i hc
  split at h
  · cases h
  have hc : isAsciiDigit c = true := by simpa using hc
  rw [scan_digit hc (by omega)] at hscan
  exact ⟨hc, hscan⟩

/-- After the point only digits are accepted. -/
theorem digits_of_scan {max : Nat} {body : List UInt8} {s s' : Scan} (hp : s.point = true)
    (h : scan max body s = .ok s') : (∀ c ∈ body, isAsciiDigit c = true) ∧ s' = s.advance body.length := by
  induction body generalizing s with
  | nil =>
    cases h
    exact ⟨by simp, by simp [Scan.advance]⟩
  | cons c body ih =>
    obtain ⟨hc, h⟩ := digit_of_scan (fun hpoint => by simp [hp] at hpoint) h
    obtain ⟨hbody, rfl⟩ := ih ((advance_point s 1).trans hp) h
    exact ⟨List.forall_mem_cons.2 ⟨hc, hbody⟩, by rw [advance_advance, List.length_cons, Nat.add_comm 1]⟩

/-- What is accepted before the point: digits, and perhaps a point after a first digit with digits behind it. -/
theorem split_of_scan {max : Nat} {body : List UInt8} {s s' : Scan} (hp : s.point = false)
    (h : scan max body s = .ok s') :
    ∃ (w : List UInt8) (f : Option (List UInt8)), (∀ c ∈ w, isAsciiDigit c = true) ∧ (∀ g ∈ f, ∀ c ∈ g, isAsciiDigit c = true) ∧
      body = w ++ f.elim [] (46 :: ·) ∧ s'.whole = s.whole + w.length ∧ s'.point = f.isSome ∧
      s'.fraction = s.fraction + (f.getD []).length := by
  induction body generalizing s with
  | nil =>
    cases h
    exact ⟨[], none, by simp, by simp, rfl, rfl, hp, rfl⟩
  | cons c body ih =>
    by_cases hpoint : c = 46 ∧ s.point = false ∧ 0 < s.whole
    · rw [scan, if_pos hpoint] at h
      obtain ⟨rfl, -, -⟩ := hpoint
      obtain ⟨hbody, rfl⟩ := digits_of_scan rfl h
      exact ⟨[], some body, by simp, by simpa using hbody, rfl, by simp [Scan.advance], by simp, by simp [Scan.advance]⟩
    · obtain ⟨hc, h⟩ := digit_of_scan hpoint h
      obtain ⟨w, f, hw, hf, rfl, hwhole, hpoint, hfraction⟩ := ih ((advance_point s 1).trans hp) h
      refine ⟨c :: w, f, List.forall_mem_cons.2 ⟨hc, hw⟩, hf, rfl, ?_, hpoint, ?_⟩
      · rw [hwhole, Scan.advance, hp, List.length_cons]
        exact Nat.add_right_comm _ _ _
      · rw [hfraction, Scan.advance, hp]
        rfl

/-- The loop refuses a byte, or counts more digits than allowed. -/
theorem error_of_scan {max : Nat} {body : List UInt8} {s : Scan} {e : ExactInputError}
    (h : scan max body s = .error e) : e = .syntaxError ∨ max < s.digits + (body.filter isAsciiDigit).length := by
  induction body generalizing s with
  | nil => cases h
  | cons c body ih =>
    rw [scan] at h
    split at h
    · rename_i hpoint
      have hc : isAsciiDigit c = false := by
        rw [hpoint.1]
        rfl
      rw [List.filter_cons_of_neg (by simp [hc])]
      exact ih (s := { s with point := true }) h
    split at h
    · cases h
      exact .inl rfl
    rename_i hc
    rw [List.filter_cons_of_pos (by simpa using hc), List.length_cons]
    split at h
    · exact .inr (by omega)
    split at h
    · exact (ih h).imp_right fun hlt => by dsimp only at hlt; omega
    · exact (ih h).imp_right fun hlt => by dsimp only at hlt; omega

/-- The loop accepts the body of a decimal, counting its digits. -/
theorem scan_decimal {max : Nat} (d : Decimal) (hmax : d.digits.length ≤ max) :
    ∃ s, scan max d.body {} = .ok s ∧ s.whole = d.whole.length ∧ s.point = d.fraction.isSome ∧
      s.fraction = d.places.length := by
  have hwhole : 0 < d.whole.length := List.length_pos_iff.2 d.whole_ne
  rw [Decimal.digits, List.length_append] at hmax
  rw [Decimal.body, scan_digits d.whole_digits (by simpa using by omega)]
  rcases hf : d.fraction with _ | f
  · exact ⟨_, rfl, by simp [Scan.advance], rfl, by simp [Scan.advance, Decimal.places, hf]⟩
  · have hplaces : d.places = f := by rw [Decimal.places, hf]; rfl
    rw [hplaces] at hmax
    rw [Option.elim_some, scan, if_pos ⟨rfl, rfl, by simpa [Scan.advance] using hwhole⟩]
    have hdigits := @scan_digits max f [] { (({} : Scan).advance d.whole.length) with point := true }
      (d.fraction_digits f hf) (by simpa [Scan.advance] using hmax)
    rw [List.append_nil] at hdigits
    rw [hdigits]
    exact ⟨_, rfl, by simp [Scan.advance], rfl, by simp [Scan.advance, hplaces]⟩

/-! ### The parser -/

/-- The sign byte is not part of the body that is scanned. -/
theorem body_of_text (d : Decimal) : (if d.text.head? = some 45 ∨ d.text.head? = some 43 then d.text.tail else d.text) =
    d.body ∧ (d.text.head? = some 45 ↔ d.sign = some 45) := by
  obtain ⟨c, whole, hwhole⟩ := List.exists_cons_of_ne_nil d.whole_ne
  rcases hs : d.sign with _ | b
  · have htext : d.text = c :: (whole ++ d.fraction.elim [] (46 :: ·)) := by
      rw [Decimal.text, Decimal.body, hs, hwhole]
      rfl
    have hc := d.whole_digits c (by simp [hwhole])
    have hne : c ≠ 45 ∧ c ≠ 43 := by
      constructor
      · rintro rfl
        revert hc
        decide
      · rintro rfl
        revert hc
        decide
    rw [htext, Decimal.body, hwhole]
    simp [hne.1, hne.2]
  · have htext : d.text = b :: d.body := by
      rw [Decimal.text, hs]
      rfl
    rw [htext]
    rcases d.sign_mem b hs with rfl | rfl
    · simp
    · simp

/-- A scan that counts digits on both sides of its point has read the text of a decimal. -/
theorem decimal_of_scan {max : Nat} {text : List UInt8} {s : Scan}
    (h : scan max (if text.head? = some 45 ∨ text.head? = some 43 then text.tail else text) {} = .ok s)
    (hcheck : ¬ (s.whole = 0 ∨ (s.point = true ∧ s.fraction = 0))) :
    ∃ d : Decimal, d.text = text ∧ s.fraction = d.places.length := by
  obtain ⟨w, f, hw, hf, hbody, hwhole, hpoint, hfraction⟩ := split_of_scan rfl h
  dsimp only at hwhole hfraction
  rw [Nat.zero_add] at hwhole hfraction
  push Not at hcheck
  have hwne : w ≠ [] := by
    rintro rfl
    exact hcheck.1 hwhole
  have hfne : f ≠ some [] := by
    rintro rfl
    exact hcheck.2 hpoint hfraction
  by_cases hsign : text.head? = some 45 ∨ text.head? = some 43
  · rw [if_pos hsign] at hbody
    have hmem : ∀ c ∈ text.head?, c = 43 ∨ c = 45 := by
      intro c hc
      rcases hsign with h | h
      · exact .inr (Option.some.inj (hc.symm.trans h))
      · exact .inl (Option.some.inj (hc.symm.trans h))
    refine ⟨⟨text.head?, w, f, hmem, hwne, hw, hfne, hf⟩, ?_, hfraction⟩
    show text.head?.toList ++ (w ++ f.elim [] (46 :: ·)) = text
    rw [← hbody]
    cases text with
    | nil => simp at hsign
    | cons c text => rfl
  · rw [if_neg hsign] at hbody
    exact ⟨⟨none, w, f, by simp, hwne, hw, hfne, hf⟩, hbody.symm, hfraction⟩

/-- The digits of the body are the digits of the decimal. -/
theorem filter_body (d : Decimal) : d.body.filter isAsciiDigit = d.digits := by
  rw [Decimal.body, Decimal.digits, List.filter_append, List.filter_eq_self.2 d.whole_digits, Decimal.places]
  rcases hf : d.fraction with _ | f
  · rfl
  · rw [Option.elim_some, List.filter_cons_of_neg (by decide), List.filter_eq_self.2 (d.fraction_digits f hf), Option.getD_some]

section parser
variable {limits : ExactInputLimits}

theorem foldl_ten (k : Nat) : (List.range k).foldl (fun n _ => n * 10 + (0 : UInt64).toNat) 1 = 10 ^ k := by
  induction k with
  | zero => rfl
  | succ k ih =>
    rw [List.range_succ, List.foldl_append, ih, pow_succ]
    rfl

/-- The magnitudes that the two loops build, when they succeed, and when they do. -/
theorem numerator_spec (d : Decimal) :
    (∀ r, d.digits.foldlM (fun words c => mulAddSmall words 10 (c - 48).toUInt64 limits.maxBits) [] = .ok r →
      Normalized r ∧ val r = digitsVal d.digits) ∧
    ((digitsVal d.digits).size ≤ limits.maxBits →
      ∃ r, d.digits.foldlM (fun words c => mulAddSmall words 10 (c - 48).toUInt64 limits.maxBits) [] = .ok r) := by
  have h := @foldlM_mulAddSmall_spec _ (fun c : UInt8 => (c - 48).toUInt64) limits.maxBits _ d.digits normalized_nil
  simp only [UInt8.toNat_toUInt64, val_nil] at h
  exact h

theorem denominator_spec (k : Nat) :
    (∀ r, (List.range k).foldlM (fun words _ => mulAddSmall words 10 0 limits.maxBits) [1] = .ok r →
      Normalized r ∧ val r = 10 ^ k) ∧
    ((10 ^ k).size ≤ limits.maxBits →
      ∃ r, (List.range k).foldlM (fun words _ => mulAddSmall words 10 0 limits.maxBits) [1] = .ok r) := by
  have h := @foldlM_mulAddSmall_spec _ (fun _ : Nat => 0) limits.maxBits _ (List.range k) normalized_one
  rwa [val_one, foldl_ten] at h

theorem Decimal.value_eq (d : Decimal) {negative : Bool} (h : negative = true ↔ d.sign = some 45) :
    (signed negative (digitsVal d.digits) : ℚ) / ((10 ^ d.places.length : Nat) : ℤ) = d.value := by
  have hpow : (10 : ℚ) ^ d.places.length ≠ 0 := pow_ne_zero _ (by norm_num)
  rw [Decimal.value, Decimal.digits, digitsVal_append]
  by_cases hs : d.sign = some 45
  · rw [if_pos hs, h.2 hs, signed, if_pos rfl]
    push_cast
    field_simp
  · rw [if_neg hs, Bool.eq_false_iff.2 fun hn => hs (h.1 hn), signed, if_neg Bool.false_ne_true]
    push_cast
    field_simp

/-- What is parsed is the text of a decimal, and its value. -/
theorem decimal_of_fromDecimalStr {text : List UInt8} {q : ExactRational} (h : fromDecimalStr text limits = .ok q) :
    ∃ d : Decimal, d.text = text ∧ q.Canonical ∧ q.toRat = d.value := by
  simp only [fromDecimalStr, bind_eq_ok, failIf_eq_ok] at h
  obtain ⟨-, -, s, hscan, -, hcheck, n, hn, -, -, m, hm, h⟩ := h
  obtain ⟨d, rfl, hfraction⟩ := decimal_of_scan hscan hcheck
  obtain ⟨hbody, hsign⟩ := body_of_text d
  rw [hbody, filter_body] at hn
  obtain ⟨hnn, hnv⟩ := (numerator_spec d).1 n hn
  obtain ⟨hmn, hmv⟩ := (denominator_spec s.fraction).1 m hm
  obtain ⟨hcanonical, hvalue⟩ := reduce_ok hnn hmn (by rw [hmv]; positivity) h
  refine ⟨d, rfl, hcanonical, ?_⟩
  rw [hvalue, hnv, hmv, hfraction]
  exact d.value_eq (by rw [decide_eq_true_iff, hsign])

/-- Every decimal whose digits and magnitudes fit the limits is parsed, with steps for two bits each. -/
theorem fromDecimalStr_isOk (hmax : limits.maxBits < 2 ^ 64) (d : Decimal) (hdigits : d.digits.length ≤ limits.maxDigits)
    (hn : (digitsVal d.digits).size ≤ limits.maxBits) (hm : (10 ^ d.places.length).size ≤ limits.maxBits)
    (hsteps : 2 * limits.maxBits ≤ limits.maxGcdSteps) : ∃ q, fromDecimalStr d.text limits = .ok q := by
  obtain ⟨s, hscan, hwhole, hpoint, hfraction⟩ := scan_decimal d hdigits
  obtain ⟨hbody, -⟩ := body_of_text d
  obtain ⟨n, hnok⟩ := (numerator_spec d).2 hn
  obtain ⟨m, hmok⟩ := (denominator_spec d.places.length).2 hm
  obtain ⟨hnn, hnv⟩ := (numerator_spec d).1 n hnok
  obtain ⟨hmn, hmv⟩ := (denominator_spec d.places.length).1 m hmok
  obtain ⟨q, hq⟩ := @reduce_isOk (decide (d.text.head? = some 45)) n m limits hnn (by rw [hmv]; positivity)
    (hnv ▸ hn) (hmv ▸ hm) hsteps hmax
  have hlength : ¬ limits.maxDigits < d.text.length - 2 := by
    have hsign : d.sign.toList.length ≤ 1 := by cases d.sign <;> simp
    have hbodylen : d.body.length ≤ d.digits.length + 1 := by
      rw [Decimal.body, Decimal.digits, Decimal.places, List.length_append, List.length_append, Nat.add_assoc]
      cases d.fraction <;> simp
    rw [Decimal.text, List.length_append]
    omega
  have hcheck : ¬ (s.whole = 0 ∨ (s.point = true ∧ s.fraction = 0)) := by
    rintro (h | ⟨hp, h⟩)
    · rw [hwhole, List.length_eq_zero_iff] at h
      exact d.whole_ne h
    · rw [hpoint] at hp
      obtain ⟨f, hf⟩ := Option.isSome_iff_exists.1 hp
      rw [hfraction, Decimal.places, hf, List.length_eq_zero_iff, Option.getD_some] at h
      exact d.fraction_ne (h ▸ hf)
  have hone : Exact.checkBits [1] limits.maxBits = .ok () := by
    have hpos : 0 < (10 ^ d.places.length).size := Nat.size_pos.2 (by positivity)
    rw [checkBits_eq_ok]
    exact le_trans (by decide : Exact.bitLen [1] ≤ 1) (by omega)
  refine ⟨q, ?_⟩
  simp only [fromDecimalStr, bind_eq_ok, failIf_eq_ok]
  refine ⟨(), hlength, s, hbody.symm ▸ hscan, (), hcheck, n, ?_, (), hone, m, hfraction ▸ hmok, hq⟩
  rw [hbody, filter_body]
  exact hnok

/-- Any other text that passes the preflight without too many digits is refused for its syntax. -/
theorem fromDecimalStr_syntax {text : List UInt8} (hlength : text.length - 2 ≤ limits.maxDigits)
    (hno : ¬ ∃ d : Decimal, d.text = text) (hdigits : (text.filter isAsciiDigit).length ≤ limits.maxDigits) :
    fromDecimalStr text limits = .error .syntaxError := by
  have htail : ∀ c : Prop, [Decidable c] → ((if c then text.tail else text).filter isAsciiDigit).length ≤ limits.maxDigits := by
    intro c _
    split
    · exact (((List.tail_sublist text).filter _).length_le).trans hdigits
    · exact hdigits
  unfold fromDecimalStr
  rw [failIf, if_neg (by omega), ok_bind']
  rcases hscan : scan limits.maxDigits (if text.head? = some 45 ∨ text.head? = some 43 then text.tail else text) {} with e | s
  · rcases error_of_scan hscan with rfl | hlt
    · simp only [hscan]
      rfl
    · have := htail (text.head? = some 45 ∨ text.head? = some 43)
      dsimp only at hlt
      omega
  · have hcheck : s.whole = 0 ∨ (s.point = true ∧ s.fraction = 0) := by
      by_contra hcheck
      obtain ⟨d, hd, -⟩ := decimal_of_scan hscan hcheck
      exact hno ⟨d, hd⟩
    simp only [hscan, ok_bind', failIf, if_pos hcheck, error_bind']

/-- The parser accepts the texts of decimals, with their value, up to its limits; everything else is a syntax error. -/
theorem fromDecimalStr_grammar (hmax : limits.maxBits < 2 ^ 64) :
    (∀ text q, fromDecimalStr text limits = .ok q → ∃ d : Decimal, d.text = text ∧ q.Canonical ∧ q.toRat = d.value) ∧
    (∀ d : Decimal, d.digits.length ≤ limits.maxDigits → (digitsVal d.digits).size ≤ limits.maxBits →
      (10 ^ d.places.length).size ≤ limits.maxBits → 2 * limits.maxBits ≤ limits.maxGcdSteps →
      ∃ q, fromDecimalStr d.text limits = .ok q) ∧
    (∀ text, text.length - 2 ≤ limits.maxDigits → (¬ ∃ d : Decimal, d.text = text) →
      (text.filter isAsciiDigit).length ≤ limits.maxDigits → fromDecimalStr text limits = .error .syntaxError) :=
  ⟨fun _ _ h => decimal_of_fromDecimalStr h, fun d => fromDecimalStr_isOk hmax d, fun _ => fromDecimalStr_syntax⟩

/-- The decimal `-1.5`. -/
def minusOneHalf : Decimal where
  sign := some 45
  whole := [49]
  fraction := some [53]
  sign_mem := by simp
  whole_ne := by simp
  whole_digits := List.forall_mem_singleton.2 (by decide)
  fraction_ne := by simp
  fraction_digits := by
    rintro f ⟨⟩
    exact List.forall_mem_singleton.2 (by decide)

theorem fromDecimalStr_grammar_minusOneHalf :
    ∃ q, fromDecimalStr [45, 49, 46, 53] { maxDigits := 2, maxBits := 4, maxGcdSteps := 8 } = .ok q :=
  (@fromDecimalStr_grammar { maxDigits := 2, maxBits := 4, maxGcdSteps := 8 } (by norm_num)).2.1 minusOneHalf le_rfl
    (Nat.size_le.2 (by decide +kernel)) (Nat.size_le.2 (by decide +kernel)) le_rfl

end parser
end ExactRational
end BmlSys
