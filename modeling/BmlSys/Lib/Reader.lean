import BmlSys.Lib.Binary64
import BmlSys.Lib.BytePack
import BmlSys.Lib.Except

/-!
# Readers of byte strings

A reader takes bytes off the front, or fails. `Reads r bytes a` is its side of a round trip: on `bytes`, whatever follows,
it returns `a` and leaves what follows. `Consumes r Q E` says what it accepts: the bytes it took and the value they gave
are related by `Q`, and its failures satisfy `E`. Both have a rule for each construct.
-/

/-- Computations that consume bytes. -/
abbrev Reader (ε α : Type) := StateT (List UInt8) (Except ε) α

namespace BytePack

/-- `u32::to_le_bytes`. -/
def u32Bytes (x : UInt32) : List UInt8 := toLe 4 x.toNat

/-- `u64::to_le_bytes`. -/
def u64Bytes (x : UInt64) : List UInt8 := toLe 8 x.toNat

/-- `u32::from_le_bytes`. -/
def u32Of (bytes : List UInt8) : UInt32 := UInt32.ofNat (fromLe bytes)

/-- `u64::from_le_bytes`. -/
def u64Of (bytes : List UInt8) : UInt64 := UInt64.ofNat (fromLe bytes)

@[simp] theorem length_u32Bytes (x : UInt32) : (u32Bytes x).length = 4 := length_toLe _ _

@[simp] theorem length_u64Bytes (x : UInt64) : (u64Bytes x).length = 8 := length_toLe _ _

@[simp] theorem u32Of_u32Bytes (x : UInt32) : u32Of (u32Bytes x) = x := by
  rw [u32Of, u32Bytes, fromLe_toLe x.toNat_lt, UInt32.ofNat_toNat]

@[simp] theorem u64Of_u64Bytes (x : UInt64) : u64Of (u64Bytes x) = x := by
  rw [u64Of, u64Bytes, fromLe_toLe x.toNat_lt, UInt64.ofNat_toNat]

theorem u32Bytes_u32Of {bytes : List UInt8} (h : bytes.length = 4) : u32Bytes (u32Of bytes) = bytes := by
  have hlt : fromLe bytes < 2 ^ 32 := by
    have hlt := fromLe_lt bytes
    rw [h] at hlt
    exact hlt
  rw [u32Bytes, u32Of, UInt32.toNat_ofNat_of_lt' hlt, ← h, toLe_fromLe]

theorem u64Bytes_u64Of {bytes : List UInt8} (h : bytes.length = 8) : u64Bytes (u64Of bytes) = bytes := by
  have hlt : fromLe bytes < 2 ^ 64 := by
    have hlt := fromLe_lt bytes
    rw [h] at hlt
    exact hlt
  rw [u64Bytes, u64Of, UInt64.toNat_ofNat_of_lt' hlt, ← h, toLe_fromLe]

/-- `as_chunks::<k>()`: the whole chunks of `k` bytes; the bytes after them are left out. -/
def asChunks (k : Nat) (bytes : List UInt8) : List (List UInt8) :=
  (List.range (bytes.length / k)).map fun i => (bytes.drop (i * k)).take k

theorem asChunks_append {k : Nat} (hk : 0 < k) {chunk : List UInt8} (h : chunk.length = k) (rest : List UInt8) :
    asChunks k (chunk ++ rest) = chunk :: asChunks k rest := by
  have hdrop (i : Nat) : (chunk ++ rest).drop ((i + 1) * k) = rest.drop (i * k) := by
    rw [Nat.succ_mul, Nat.add_comm, ← List.drop_drop, List.drop_left' h]
  rw [asChunks, List.length_append, h, Nat.add_div_left _ hk, List.range_succ_eq_map, List.map_cons, List.map_map, Nat.zero_mul,
    List.drop_zero, List.take_left' h, asChunks]
  exact congrArg _ (List.map_congr_left fun i _ => congrArg (List.take k) (hdrop i))

theorem asChunks_flatMap {α : Type} {k : Nat} (hk : 0 < k) {enc : α → List UInt8} (henc : ∀ a, (enc a).length = k) (l : List α) :
    asChunks k (l.flatMap enc) = l.map enc := by
  induction l with
  | nil =>
    rw [asChunks, List.flatMap_nil, List.length_nil, Nat.zero_div]
    rfl
  | cons a l ih => rw [List.flatMap_cons, asChunks_append hk (henc a), ih, List.map_cons]

/-- A whole number of chunks. -/
theorem flatten_asChunks {k n : Nat} (hk : 0 < k) {bytes : List UInt8} (h : bytes.length = n * k) :
    (asChunks k bytes).length = n ∧ (asChunks k bytes).flatten = bytes ∧ ∀ chunk ∈ asChunks k bytes, chunk.length = k := by
  induction n generalizing bytes with
  | zero =>
    obtain rfl : bytes = [] := List.eq_nil_of_length_eq_zero (by rw [h, Nat.zero_mul])
    rw [asChunks, List.length_nil, Nat.zero_div]
    exact ⟨rfl, rfl, fun _ h => (nomatch h)⟩
  | succ n ih =>
    rw [Nat.succ_mul] at h
    have htake : (bytes.take k).length = k := List.length_take_of_le (by omega)
    have hdrop : (bytes.drop k).length = n * k := by
      rw [List.length_drop]
      omega
    obtain ⟨hlen, hflatten, hall⟩ := ih hdrop
    have hsplit := asChunks_append hk htake (bytes.drop k)
    rw [List.take_append_drop] at hsplit
    rw [hsplit, List.length_cons, hlen, List.flatten_cons, hflatten, List.take_append_drop]
    exact ⟨rfl, rfl, List.forall_mem_cons.2 ⟨htake, hall⟩⟩

def u64Chunks (bytes : List UInt8) : List UInt64 := (asChunks 8 bytes).map u64Of

def u32Chunks (bytes : List UInt8) : List UInt32 := (asChunks 4 bytes).map u32Of

theorem u64Chunks_flatMap (l : List UInt64) : u64Chunks (l.flatMap u64Bytes) = l := by
  rw [u64Chunks, asChunks_flatMap (by decide) length_u64Bytes, List.map_map]
  exact (List.map_congr_left fun x _ => u64Of_u64Bytes x).trans (List.map_id l)

theorem u32Chunks_flatMap (l : List UInt32) : u32Chunks (l.flatMap u32Bytes) = l := by
  rw [u32Chunks, asChunks_flatMap (by decide) length_u32Bytes, List.map_map]
  exact (List.map_congr_left fun x _ => u32Of_u32Bytes x).trans (List.map_id l)

/-- Whole words are written back as the same bytes. -/
theorem flatMap_u64Chunks {n : Nat} {bytes : List UInt8} (h : bytes.length = n * 8) :
    (u64Chunks bytes).length = n ∧ (u64Chunks bytes).flatMap u64Bytes = bytes := by
  obtain ⟨hlen, hflatten, hall⟩ := flatten_asChunks (by decide) h
  refine ⟨by rw [u64Chunks, List.length_map, hlen], ?_⟩
  rw [u64Chunks, List.flatMap_map, List.flatMap_def, List.map_congr_left fun chunk hchunk => u64Bytes_u64Of (hall chunk hchunk),
    List.map_id', hflatten]

theorem flatMap_u32Chunks {n : Nat} {bytes : List UInt8} (h : bytes.length = n * 4) :
    (u32Chunks bytes).length = n ∧ (u32Chunks bytes).flatMap u32Bytes = bytes := by
  obtain ⟨hlen, hflatten, hall⟩ := flatten_asChunks (by decide) h
  refine ⟨by rw [u32Chunks, List.length_map, hlen], ?_⟩
  rw [u32Chunks, List.flatMap_map, List.flatMap_def, List.map_congr_left fun chunk hchunk => u32Bytes_u32Of (hall chunk hchunk),
    List.map_id', hflatten]

/-! ### Binary64 data -/

def f64Bytes (xs : List F64) : List UInt8 := xs.flatMap fun value => u64Bytes value.bits

def f64Chunks (bytes : List UInt8) : List F64 := (u64Chunks bytes).map F64.mk

@[simp] theorem length_f64Bytes (xs : List F64) : (f64Bytes xs).length = xs.length * 8 := by
  simp [f64Bytes, List.length_flatMap]

theorem f64Bytes_append (xs ys : List F64) : f64Bytes (xs ++ ys) = f64Bytes xs ++ f64Bytes ys := List.flatMap_append

theorem f64Chunks_f64Bytes (xs : List F64) : f64Chunks (f64Bytes xs) = xs := by
  have hmap : f64Bytes xs = (xs.map F64.bits).flatMap u64Bytes := by
    rw [f64Bytes, List.flatMap_map]
  rw [f64Chunks, hmap, u64Chunks_flatMap, List.map_map]
  exact List.map_id xs

theorem f64Bytes_f64Chunks {n : Nat} {bytes : List UInt8} (h : bytes.length = n * 8) :
    (f64Chunks bytes).length = n ∧ f64Bytes (f64Chunks bytes) = bytes := by
  obtain ⟨hlen, hbytes⟩ := flatMap_u64Chunks h
  rw [f64Chunks, List.length_map, hlen, f64Bytes, List.flatMap_map, hbytes]
  exact ⟨rfl, rfl⟩

end BytePack

namespace Reader
open BytePack Except
variable {ε α β : Type}

def take (n : Nat) (e : ε) : Reader ε (List UInt8) := fun bytes =>
  if bytes.length < n then .error e else .ok (bytes.take n, bytes.drop n)

def u8 (e : ε) : Reader ε UInt8
  | [] => .error e
  | byte :: bytes => .ok (byte, bytes)

def u32 (e : ε) : Reader ε UInt32 := do pure (u32Of (← take 4 e))

def u64 (e : ε) : Reader ε UInt64 := do pure (u64Of (← take 8 e))

/-- Fail with `e` unless `n` bytes are left. -/
def need (n : Nat) (e : ε) : Reader ε Unit := fun bytes => if bytes.length < n then .error e else .ok ((), bytes)

/-- Fail with `e` when `c` holds. -/
def check (c : Prop) [Decidable c] (e : ε) : Reader ε Unit := fun bytes => do
  failIf c e
  pure ((), bytes)

def fail (e : ε) : Reader ε α := fun _ => .error e

/-- How many bytes are left. -/
def remaining : Reader ε Nat := fun bytes => .ok (bytes.length, bytes)

def finish (e : ε) : Reader ε Unit := fun bytes => if bytes = [] then .ok ((), []) else .error e

/-- The value of `o`, or `e` when there is none. -/
def orFail (o : Option α) (e : ε) : Reader ε α := fun bytes => do
  let a ← okOr o e
  pure (a, bytes)

/-- Read `n` items. -/
def many (r : Reader ε α) : Nat → Reader ε (List α)
  | 0 => pure []
  | n + 1 => do
    let a ← r
    let as ← many r n
    pure (a :: as)

theorem bind_apply (r : Reader ε α) (f : α → Reader ε β) (bytes : List UInt8) :
    (r >>= f) bytes = (r bytes >>= fun p => f p.1 p.2) := rfl

theorem pure_apply (a : α) (bytes : List UInt8) : (pure a : Reader ε α) bytes = .ok (a, bytes) := rfl

theorem take_of_lt {n : Nat} {e : ε} {bytes : List UInt8} (h : bytes.length < n) : take n e bytes = .error e := if_pos h

theorem take_of_le {n : Nat} {e : ε} {bytes : List UInt8} (h : n ≤ bytes.length) :
    take n e bytes = .ok (bytes.take n, bytes.drop n) := if_neg (Nat.not_lt.2 h)

theorem u32_of_lt {e : ε} {bytes : List UInt8} (h : bytes.length < 4) : u32 e bytes = .error e := by
  rw [u32, bind_apply, take_of_lt h, error_bind']

theorem u32_of_le {e : ε} {bytes : List UInt8} (h : 4 ≤ bytes.length) :
    u32 e bytes = .ok (u32Of (bytes.take 4), bytes.drop 4) := by
  rw [u32, bind_apply, take_of_le h, ok_bind']
  rfl

/-! ### Round trips -/

/-- Reads `bytes` as `a`, whatever follows. -/
def Reads (r : Reader ε α) (bytes : List UInt8) (a : α) : Prop := ∀ rest, r (bytes ++ rest) = .ok (a, rest)

namespace Reads
variable {r : Reader ε α} {bytes : List UInt8} {a : α} {e : ε}

theorem pure (a : α) : Reads (Pure.pure a : Reader ε α) [] a := fun _ => rfl

theorem bind {f : α → Reader ε β} {bytes' : List UInt8} {b : β} (h : Reads r bytes a) (hf : Reads (f a) bytes' b) :
    Reads (r >>= f) (bytes ++ bytes') b := by
  intro rest
  rw [bind_apply, List.append_assoc, h, ok_bind']
  exact hf rest

/-- A step that takes nothing. -/
theorem bind_nil {f : α → Reader ε β} {b : β} (h : Reads r [] a) (hf : Reads (f a) bytes b) : Reads (r >>= f) bytes b :=
  h.bind hf

/-- The last step. -/
theorem ret {f : α → Reader ε β} {b : β} (h : Reads r bytes a) (hf : f a = Pure.pure b) : Reads (r >>= f) bytes b := by
  intro rest
  rw [bind_apply, h, ok_bind', hf]
  rfl

theorem take {n : Nat} (h : bytes.length = n) : Reads (Reader.take n e) bytes bytes := by
  intro rest
  rw [Reader.take, if_neg (by rw [List.length_append, h]; omega), List.take_left' h, List.drop_left' h]

theorem u8 (byte : UInt8) : Reads (Reader.u8 e) [byte] byte := fun _ => rfl

theorem u32 (x : UInt32) : Reads (Reader.u32 e) (u32Bytes x) x :=
  (take (length_u32Bytes x)).ret (by rw [u32Of_u32Bytes])

theorem u64 (x : UInt64) : Reads (Reader.u64 e) (u64Bytes x) x :=
  (take (length_u64Bytes x)).ret (by rw [u64Of_u64Bytes])

theorem check {c : Prop} [Decidable c] (h : ¬ c) : Reads (Reader.check c e) [] () := by
  intro rest
  rw [Reader.check, failIf, if_neg h]
  rfl

/-- A length check before what it protects. -/
theorem needed {n : Nat} (hn : n ≤ bytes.length) (h : Reads r bytes a) : Reads (Reader.need n e >>= fun _ => r) bytes a := by
  intro rest
  have hlen : ¬ (bytes ++ rest).length < n := by
    rw [List.length_append]
    omega
  rw [bind_apply, need, if_neg hlen, ok_bind']
  exact h rest

theorem orFail {o : Option α} (h : o = some a) : Reads (Reader.orFail o e) [] a := by
  intro rest
  rw [Reader.orFail, h]
  rfl

/-- What is left is at least what is to be read. -/
theorem remaining {f : Nat → Reader ε α} (h : ∀ left, bytes.length ≤ left → Reads (f left) bytes a) :
    Reads (Reader.remaining >>= f) bytes a := by
  intro rest
  have hlen : bytes.length ≤ (bytes ++ rest).length := by
    rw [List.length_append]
    exact Nat.le_add_right _ _
  exact h _ hlen rest

theorem many {enc : α → List UInt8} {l : List α} (h : ∀ a ∈ l, Reads r (enc a) a) :
    Reads (Reader.many r l.length) (l.flatMap enc) l := by
  induction l with
  | nil => exact pure []
  | cons a l ih =>
    have htail := ih fun b hb => h b (List.mem_cons_of_mem _ hb)
    exact (h a List.mem_cons_self).bind (htail.ret rfl)

/-- A failure after the first items. -/
theorem many_error {enc : α → List UInt8} {l : List α} {n : Nat} {rest : List UInt8} (h : ∀ a ∈ l, Reads r (enc a) a)
    (hn : l.length < n) (he : r rest = .error e) : Reader.many r n (l.flatMap enc ++ rest) = .error e := by
  obtain ⟨n, rfl⟩ := Nat.exists_eq_succ_of_ne_zero (Nat.ne_zero_of_lt hn)
  induction l generalizing n with
  | nil =>
    rw [List.flatMap_nil, List.nil_append, Reader.many, bind_apply, he, error_bind']
  | cons a l ih =>
    rw [List.length_cons, Nat.succ_lt_succ_iff] at hn
    obtain ⟨n, rfl⟩ := Nat.exists_eq_succ_of_ne_zero (Nat.ne_zero_of_lt hn)
    have htail := ih (fun b hb => h b (List.mem_cons_of_mem _ hb)) n hn
    rw [List.flatMap_cons, List.append_assoc, Reader.many, bind_apply, h a List.mem_cons_self, ok_bind', bind_apply, htail,
      error_bind']

end Reads

/-! ### What is accepted -/

/-- The bytes taken and the value are related by `Q`, and failures satisfy `E`. -/
def Consumes (r : Reader ε α) (Q : α → List UInt8 → Prop) (E : ε → Prop) : Prop :=
  ∀ bytes, Sat (r bytes) (fun p => ∃ used, bytes = used ++ p.2 ∧ Q p.1 used) E

namespace Consumes
variable {r : Reader ε α} {Q Q' : α → List UInt8 → Prop} {E : ε → Prop} {e : ε}

theorem mono (h : Consumes r Q E) (hQ : ∀ a used, Q a used → Q' a used) : Consumes r Q' E := fun bytes =>
  (h bytes).mono (fun _ ⟨used, hbytes, hused⟩ => ⟨used, hbytes, hQ _ _ hused⟩) fun _ he => he

theorem pure {a : α} (h : Q a []) : Consumes (Pure.pure a) Q E := fun _ => ⟨[], rfl, h⟩

theorem bind {f : α → Reader ε β} {R : β → List UInt8 → Prop} (h : Consumes r Q E)
    (hf : ∀ a used, Q a used → Consumes (f a) (fun b used' => R b (used ++ used')) E) : Consumes (r >>= f) R E := by
  intro bytes
  rw [bind_apply]
  refine (h bytes).bind ?_
  rintro ⟨a, rest⟩ ⟨used, rfl, hused⟩
  refine (hf a used hused rest).mono ?_ fun _ he => he
  rintro ⟨b, rest'⟩ ⟨used', rfl, hused'⟩
  exact ⟨used ++ used', (List.append_assoc _ _ _).symm, hused'⟩

theorem fail (h : E e) : Consumes (Reader.fail e : Reader ε α) Q E := fun _ => h

theorem take (n : Nat) (h : E e) : Consumes (Reader.take n e) (fun a used => a = used ∧ used.length = n) E := by
  intro bytes
  rw [Reader.take]
  split
  · exact h
  · rename_i hlen
    exact ⟨bytes.take n, (List.take_append_drop n bytes).symm, rfl, by rw [List.length_take]; omega⟩

theorem u8 (h : E e) : Consumes (Reader.u8 e) (fun byte used => used = [byte]) E := by
  intro bytes
  cases bytes with
  | nil => exact h
  | cons byte bytes => exact ⟨[byte], rfl, rfl⟩

theorem u32 (h : E e) : Consumes (Reader.u32 e) (fun x used => used = u32Bytes x) E :=
  (take 4 h).bind fun _ _ ⟨ha, hlen⟩ => pure (by rw [ha, u32Bytes_u32Of hlen, List.append_nil])

theorem u64 (h : E e) : Consumes (Reader.u64 e) (fun x used => used = u64Bytes x) E :=
  (take 8 h).bind fun _ _ ⟨ha, hlen⟩ => pure (by rw [ha, u64Bytes_u64Of hlen, List.append_nil])

theorem check {c : Prop} [Decidable c] (h : c → E e) : Consumes (Reader.check c e) (fun _ used => ¬ c ∧ used = []) E := by
  intro bytes
  exact (Sat.failIf h).bind fun _ hc => ⟨[], rfl, hc, rfl⟩

theorem orFail {o : Option α} (h : o = none → E e) :
    Consumes (Reader.orFail o e) (fun a used => o = some a ∧ used = []) E := by
  intro bytes
  exact (Sat.okOr h).bind fun _ ha => ⟨[], rfl, ha, rfl⟩

theorem remaining : Consumes (Reader.remaining : Reader ε Nat) (fun _ used => used = []) E := fun _ => ⟨[], rfl, rfl⟩

theorem finish (h : E e) : Consumes (Reader.finish e) (fun _ used => used = []) E := by
  intro bytes
  rw [Reader.finish]
  split
  · rename_i hnil
    exact ⟨[], hnil, rfl⟩
  · exact h

/-- A step that took nothing. -/
theorem bind_nil {P : α → Prop} {f : α → Reader ε β} {R : β → List UInt8 → Prop}
    (h : Consumes r (fun a used => P a ∧ used = []) E) (hf : ∀ a, P a → Consumes (f a) R E) : Consumes (r >>= f) R E :=
  h.bind fun a _ ⟨ha, hused⟩ => by
    subst hused
    exact hf a ha

/-- Where repetition fails, an item failed after the ones before it. -/
theorem many_eq_error {enc : α → List UInt8} (h : Consumes r (fun a used => used = enc a ∧ Q a used) E) {n : Nat}
    {bytes : List UInt8} (he : Reader.many r n bytes = .error e) :
    ∃ (l : List α) (rest : List UInt8), l.length < n ∧ bytes = l.flatMap enc ++ rest ∧ (∀ a ∈ l, Q a (enc a)) ∧
      r rest = .error e := by
  induction n generalizing bytes with
  | zero => exact absurd he pure_ne_error
  | succ n ih =>
    rw [Reader.many, bind_apply] at he
    rcases bind_eq_error.1 he with he | ⟨⟨a, rest⟩, ha, he⟩
    · exact ⟨[], bytes, Nat.succ_pos n, rfl, fun _ h => (nomatch h), he⟩
    · have hitem := h bytes
      rw [ha] at hitem
      obtain ⟨used, hbytes, hused, hQ⟩ := hitem
      subst hused
      rcases bind_eq_error.1 he with he | ⟨_, _, he⟩
      · obtain ⟨l, rest', hlen, rfl, hl, he⟩ := ih he
        refine ⟨a :: l, rest', Nat.succ_lt_succ hlen, ?_, ?_, he⟩
        · rw [hbytes, List.flatMap_cons, List.append_assoc]
        · exact fun b hb => (List.mem_cons.1 hb).elim (fun hb => hb ▸ hQ) (hl b)
      · exact absurd he pure_ne_error

theorem many {enc : α → List UInt8} (h : Consumes r (fun a used => used = enc a ∧ Q a used) E) (n : Nat) :
    Consumes (Reader.many r n) (fun l used => l.length = n ∧ used = l.flatMap enc ∧ ∀ a ∈ l, Q a (enc a)) E := by
  induction n with
  | zero => exact pure ⟨rfl, rfl, fun _ h => nomatch h⟩
  | succ n ih =>
    refine h.bind fun a used ⟨hused, ha⟩ => ih.bind fun l used' ⟨hlen, hused', hl⟩ => pure ?_
    subst hused hused'
    refine ⟨by rw [List.length_cons, hlen], by rw [List.append_nil, List.flatMap_cons], ?_⟩
    exact fun b hb => (List.mem_cons.1 hb).elim (fun hb => hb ▸ ha) (hl b)

end Consumes

/-- As `Consumes`, when `k` bytes are left. -/
def ConsumesAt (k : Nat) (r : Reader ε α) (Q : α → List UInt8 → Prop) (E : ε → Prop) : Prop :=
  ∀ bytes, k ≤ bytes.length → Sat (r bytes) (fun p => ∃ used, bytes = used ++ p.2 ∧ Q p.1 used) E

namespace ConsumesAt
variable {r : Reader ε α} {Q : α → List UInt8 → Prop} {E : ε → Prop} {e : ε} {k : Nat}

theorem of (h : Consumes r Q E) : ConsumesAt k r Q E := fun bytes _ => h bytes

theorem bind {f : α → Reader ε β} {R : β → List UInt8 → Prop} (h : ConsumesAt k r Q E)
    (hf : ∀ a used, Q a used → ConsumesAt (k - used.length) (f a) (fun b used' => R b (used ++ used')) E) :
    ConsumesAt k (r >>= f) R E := by
  intro bytes hk
  rw [bind_apply]
  refine (h bytes hk).bind ?_
  rintro ⟨a, rest⟩ ⟨used, rfl, hused⟩
  have hrest : k - used.length ≤ rest.length := by
    rw [List.length_append] at hk
    exact Nat.sub_le_iff_le_add'.2 hk
  refine (hf a used hused rest hrest).mono ?_ fun _ he => he
  rintro ⟨b, rest'⟩ ⟨used', rfl, hused'⟩
  exact ⟨used ++ used', (List.append_assoc _ _ _).symm, hused'⟩

/-- A step that took nothing. -/
theorem bind_nil {P : α → Prop} {f : α → Reader ε β} {R : β → List UInt8 → Prop}
    (h : Consumes r (fun a used => P a ∧ used = []) E) (hf : ∀ a, P a → ConsumesAt k (f a) R E) : ConsumesAt k (r >>= f) R E :=
  (of h).bind fun a _ ⟨ha, hused⟩ => by
    subst hused
    exact hf a ha

/-- A read that the bytes left cover cannot fail. -/
theorem take {n : Nat} (h : n ≤ k ∨ E e) : ConsumesAt k (Reader.take n e) (fun a used => a = used ∧ used.length = n) E := by
  intro bytes hk
  rcases h with h | h
  · rw [take_of_le (h.trans hk)]
    exact ⟨bytes.take n, (List.take_append_drop n bytes).symm, rfl, List.length_take_of_le (h.trans hk)⟩
  · exact Consumes.take n h bytes

theorem u32 (h : 4 ≤ k ∨ E e) : ConsumesAt k (Reader.u32 e) (fun x used => used = u32Bytes x) E :=
  (take h).bind fun _ _ ⟨ha, hlen⟩ => of (Consumes.pure (by rw [ha, u32Bytes_u32Of hlen, List.append_nil]))

theorem u64 (h : 8 ≤ k ∨ E e) : ConsumesAt k (Reader.u64 e) (fun x used => used = u64Bytes x) E :=
  (take h).bind fun _ _ ⟨ha, hlen⟩ => of (Consumes.pure (by rw [ha, u64Bytes_u64Of hlen, List.append_nil]))

/-- A length check and what it protects. -/
theorem need (h : ConsumesAt k r Q E) (he : E e) : Consumes (Reader.need k e >>= fun _ => r) Q E := by
  intro bytes
  rw [bind_apply, Reader.need]
  split
  · exact he
  · exact h bytes (by omega)

end ConsumesAt

/-- What is left after the last reader. -/
theorem finish_eq_ok {e : ε} {bytes rest : List UInt8} {u : Unit} : Reader.finish e bytes = .ok (u, rest) ↔ bytes = [] ∧ rest = [] := by
  rw [Reader.finish]
  split <;> simp_all [eq_comm]

end Reader
