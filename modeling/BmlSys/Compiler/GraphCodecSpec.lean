import BmlSys.Compiler.GraphCodec

/-!
# What the `.bmlgraph` format holds

`encode version` is the format of one version. The reader accepts exactly the encodings of the four versions within its
limits, and the writer writes the encoding of the version it chooses.
-/

namespace BmlSys
open Reader BytePack Except

namespace BmlGraph

theorem accepts_tag (version : UInt32) (op : RpnOp) : accepts version op.tag =
    if op = .fmax then decide (bmlgraphSelectionVersion ≤ version)
    else if op.isContext then decide (bmlgraphContextVersion ≤ version) else true := by
  cases op <;> simp [accepts, RpnOp.tag, RpnOp.isContext]

/-- The format of a version. -/
def encode (version : UInt32) (g : BmlGraph) : List UInt8 :=
  u32Bytes bmlgraphMagic ++ (u32Bytes version ++ (u32Bytes (UInt32.ofNat g.fragments.length) ++
    (g.fragments.flatMap Fragment.encode ++ if 2 ≤ version then
      u64Bytes (UInt64.ofNat g.constPool.length) ++ f64Bytes g.constPool else [])))

/-- The graphs a file of a version can hold. -/
structure Holds (version : UInt32) (g : BmlGraph) : Prop where
  le : 1 ≤ version ∧ version ≤ bmlgraphSelectionVersion
  fragments : g.fragments.length < 2 ^ 32
  ops : ∀ f ∈ g.fragments, f.ops.length < 2 ^ 32 ∧ ∀ op ∈ f.ops, accepts version op.tag = true
  pool : ¬ 2 ≤ version → g.constPool = []

theorem serialVersion_cases (g : BmlGraph) :
    g.serialVersion = 2 ∨ g.serialVersion = 3 ∨ g.serialVersion = 4 := by
  unfold serialVersion
  split_ifs
  · exact .inr (.inr rfl)
  · exact .inr (.inl rfl)
  · exact .inl rfl

theorem two_le_serialVersion (g : BmlGraph) : 2 ≤ g.serialVersion := by
  rcases g.serialVersion_cases with h | h | h <;> rw [h] <;> decide

theorem serialize_eq (g : BmlGraph) : g.serialize = encode g.serialVersion g := by
  rw [serialize, encode, if_pos g.two_le_serialVersion]
  simp only [List.append_assoc]

/-- The version that is chosen has every operation of the graph. -/
theorem accepts_serialVersion {g : BmlGraph} {op : RpnOp} (h : op ∈ g.allOps) : accepts g.serialVersion op.tag = true := by
  rw [accepts_tag, serialVersion]
  by_cases hmax : g.allOps.any (· = .fmax)
  · rw [if_pos hmax]
    split_ifs <;> rfl
  · have hop : op ≠ .fmax := fun hop => hmax (List.any_eq_true.2 ⟨op, h, decide_eq_true hop⟩)
    rw [if_neg hmax, if_neg hop]
    by_cases hcontext : op.isContext
    · rw [if_pos hcontext, if_pos (List.any_eq_true.2 ⟨op, h, hcontext⟩)]
      rfl
    · rw [if_neg hcontext]

theorem holds_serialVersion {g : BmlGraph} (hfragments : g.fragments.length < 2 ^ 32)
    (hops : ∀ f ∈ g.fragments, f.ops.length < 2 ^ 32) : Holds g.serialVersion g where
  le := by rcases g.serialVersion_cases with h | h | h <;> rw [h] <;> decide
  fragments := hfragments
  ops f hf := ⟨hops f hf, fun _ hop => accepts_serialVersion (List.mem_flatMap.2 ⟨f, hf, hop⟩)⟩
  pool h := absurd g.two_le_serialVersion h

/-! ### Reading what was written -/

section
variable {version : UInt32} {total : Nat}

theorem reads_checkedOffset {n : Nat} {message : String} (h : total + n < 2 ^ 64) :
    Reads (checkedOffset total n message) [] () := fun rest => by
  have hsum : ¬ 2 ^ 64 ≤ total - rest.length + n := by omega
  exact Reads.check hsum rest

theorem reads_op {op : RpnOp} (h : accepts version op.tag = true) (htotal : total + 8 < 2 ^ 64) :
    Reads (readOp version total) op.encode op := by
  refine RpnOp.reads_encode h fun n hle bytes hn => ?_
  have hneed : need n (Fault.error (shortMessage op.tag)) bytes = .ok ((), bytes) := if_neg (Nat.not_lt.2 hn)
  unfold guardOperands
  split
  · have hoffset : checkedOffset total n "context index range overflow" bytes = .ok ((), bytes) :=
      reads_checkedOffset (by omega) bytes
    rw [bind_apply, hoffset]
    exact hneed
  · exact hneed

theorem reads_fragments {maxOps : Nat} (htotal : total + 8 < 2 ^ 64) {fragments : List Fragment} {totalOps : Nat}
    (h : ∀ f ∈ fragments, f.ops.length < 2 ^ 32 ∧ ∀ op ∈ f.ops, accepts version op.tag = true)
    (hmax : totalOps + (fragments.flatMap Fragment.ops).length ≤ maxOps)
    (hsum : totalOps + (fragments.flatMap Fragment.ops).length < 2 ^ 64) :
    Reads (readFragments version total maxOps fragments.length totalOps) (fragments.flatMap Fragment.encode) fragments := by
  induction fragments generalizing totalOps with
  | nil => exact Reads.pure []
  | cons f fragments ih =>
    obtain ⟨⟨hlen, hops⟩, h⟩ := List.forall_mem_cons.1 h
    rw [List.flatMap_cons, List.length_append, ← Nat.add_assoc] at hmax hsum
    have hcount : (UInt32.ofNat f.ops.length).toNat = f.ops.length := UInt32.toNat_ofNat_of_lt' hlen
    rw [List.flatMap_cons, Fragment.encode, List.append_assoc]
    refine Reads.needed ?_ ((Reads.u32 _).bind ?_)
    · rw [List.length_append, length_u32Bytes]
      exact Nat.le_add_right _ _
    rw [hcount]
    refine (Reads.check (by omega)).bind_nil ((Reads.check (by omega)).bind_nil ?_)
    refine (Reads.many fun op hop => reads_op (hops op hop) htotal).bind ?_
    exact (ih h hmax hsum).ret rfl

theorem reads_pool {maxConstants : Nat} {pool : List F64} (htotal : total + 8 + pool.length * 8 < 2 ^ 64)
    (hmax : pool.length ≤ maxConstants) :
    Reads (readPool total maxConstants) (u64Bytes (UInt64.ofNat pool.length) ++ f64Bytes pool) pool := by
  have hcount : (UInt64.ofNat pool.length).toNat = pool.length := UInt64.toNat_ofNat_of_lt' (show pool.length < 2 ^ 64 by omega)
  refine (reads_checkedOffset (by omega)).bind_nil ((Reads.u64 _).bind ?_)
  rw [hcount]
  refine (Reads.check (by omega)).bind_nil ((Reads.check (by omega)).bind_nil ((reads_checkedOffset (by omega)).bind_nil ?_))
  exact (Reads.take (length_f64Bytes pool)).ret (by rw [f64Chunks_f64Bytes])

theorem reads_graph {g : BmlGraph} {threshold maxFragments maxOps maxConstants : Nat} (h : Holds version g)
    (htotal : total + 8 + g.constPool.length * 8 < 2 ^ 64) (hops : g.allOps.length < 2 ^ 64)
    (hfragments : g.fragments.length ≤ maxFragments) (hmax : g.allOps.length ≤ maxOps) (hpool : g.constPool.length ≤ maxConstants) :
    Reads (readGraph total threshold maxFragments maxOps maxConstants) (encode version g) { g with threshold } := by
  have hcount : (UInt32.ofNat g.fragments.length).toNat = g.fragments.length := UInt32.toNat_ofNat_of_lt' h.fragments
  refine Reads.needed ?_ ((Reads.u32 _).bind ((Reads.check (not_not_intro rfl)).bind_nil ?_))
  · simp only [encode, List.length_append, length_u32Bytes]
    omega
  refine (Reads.u32 _).bind ((Reads.check (not_not_intro h.le)).bind_nil ((Reads.u32 _).bind ?_))
  rw [hcount]
  refine (Reads.check (by omega)).bind_nil ((reads_fragments (by omega) h.ops ?_ ?_).bind ?_)
  · rw [Nat.zero_add]
    exact hmax
  · rw [Nat.zero_add]
    exact hops
  · by_cases hversion : 2 ≤ version
    · rw [readConstants, if_pos hversion, if_pos hversion]
      exact (reads_pool htotal hpool).ret rfl
    · rw [readConstants, if_neg hversion, if_neg hversion]
      exact (Reads.pure []).ret (by rw [h.pool hversion])

end

/-! ### What is accepted -/

section
variable {version : UInt32} {total : Nat}

theorem consumes_checkedOffset (n : Nat) (message : String) :
    Consumes (checkedOffset total n message) (fun _ used => True ∧ used = []) (· ≠ .panic) :=
  Consumes.remaining.bind fun _ _ hused => (Consumes.check fun _ => nofun).mono fun _ _ ⟨_, h⟩ => ⟨trivial, by rw [hused, h]; rfl⟩

theorem consumes_op : Consumes (readOp version total) (fun op used => used = op.encode ∧ accepts version op.tag = true)
    (· ≠ .panic) := by
  refine RpnOp.consumes_read Fault.error_ne_panic (fun _ => Fault.error_ne_panic) fun tag n bytes => ?_
  have hneed : Sat (need n (Fault.error (shortMessage tag)) bytes)
      (fun p => p.2 = bytes ∧ (n ≤ bytes.length ∨ (Fault.panic : Fault String) ≠ .panic)) (· ≠ .panic) := by
    rw [need]
    split
    · exact Fault.error_ne_panic
    · rename_i hn
      exact ⟨rfl, .inl (Nat.le_of_not_lt hn)⟩
  unfold guardOperands
  split
  · refine (consumes_checkedOffset n _ bytes).bind ?_
    rintro ⟨_, rest⟩ ⟨used, rfl, -, rfl⟩
    exact hneed
  · exact hneed

theorem consumes_fragments (maxOps n : Nat) {totalOps : Nat} (hmax : totalOps ≤ maxOps) :
    Consumes (readFragments version total maxOps n totalOps) (fun fragments used => fragments.length = n ∧
      used = fragments.flatMap Fragment.encode ∧ totalOps + (fragments.flatMap Fragment.ops).length ≤ maxOps ∧
      ∀ f ∈ fragments, f.ops.length < 2 ^ 32 ∧ ∀ op ∈ f.ops, accepts version op.tag = true) (· ≠ .panic) := by
  induction n generalizing totalOps with
  | zero => exact .pure ⟨rfl, rfl, hmax, fun _ h => (nomatch h)⟩
  | succ n ih =>
    refine ConsumesAt.need ((ConsumesAt.u32 (.inl le_rfl)).bind fun numOps _ hnum => .of ?_) nofun
    refine Consumes.bind_nil (Consumes.check fun _ => nofun) fun _ _ => ?_
    refine Consumes.bind_nil (Consumes.check fun _ => nofun) fun _ hle => ?_
    refine (consumes_op.many numOps.toNat).bind fun ops _ ⟨hlen, hops, haccepts⟩ => ?_
    refine (ih (Nat.le_of_not_lt hle)).bind fun fragments _ ⟨hcount, hused, hsum, hall⟩ => .pure ?_
    subst hnum hops hused
    refine ⟨by rw [List.length_cons, hcount], ?_, ?_, List.forall_mem_cons.2 ⟨⟨?_, haccepts⟩, hall⟩⟩
    · rw [List.flatMap_cons, Fragment.encode, hlen, UInt32.ofNat_toNat, List.append_nil, List.append_assoc]
    · rw [List.flatMap_cons, List.length_append, hlen, ← Nat.add_assoc]
      exact hsum
    · rw [hlen]
      exact numOps.toNat_lt

theorem consumes_pool (maxConstants : Nat) : Consumes (readPool total maxConstants) (fun pool used => pool.length ≤ maxConstants ∧
    used = u64Bytes (UInt64.ofNat pool.length) ++ f64Bytes pool) (· ≠ .panic) := by
  refine Consumes.bind_nil (consumes_checkedOffset 8 _) fun _ _ => (Consumes.u64 nofun).bind fun count _ hcount => ?_
  refine Consumes.bind_nil (Consumes.check fun _ => nofun) fun _ hle => ?_
  refine Consumes.bind_nil (Consumes.check fun _ => nofun) fun _ _ => Consumes.bind_nil (consumes_checkedOffset _ _) fun _ _ => ?_
  refine (Consumes.take _ nofun).bind fun bytes used ⟨hbytes, hlen⟩ => .pure ?_
  subst hcount hbytes
  obtain ⟨hwords, hused⟩ := f64Bytes_f64Chunks hlen
  rw [hwords, UInt64.ofNat_toNat, hused, List.append_nil]
  exact ⟨Nat.le_of_not_lt hle, rfl⟩

theorem consumes_graph (threshold maxFragments maxOps maxConstants : Nat) :
    Consumes (readGraph total threshold maxFragments maxOps maxConstants) (fun g used => (∃ version, Holds version g ∧
      used = encode version g) ∧ g.threshold = threshold ∧ g.fragments.length ≤ maxFragments ∧ g.allOps.length ≤ maxOps ∧
      g.constPool.length ≤ maxConstants) (· ≠ .panic) := by
  refine ConsumesAt.need ((ConsumesAt.u32 (.inl (by decide))).bind fun magic _ hmagic => ?_) nofun
  rw [hmagic, length_u32Bytes]
  refine ConsumesAt.bind_nil (Consumes.check fun _ => nofun) fun _ hne => ?_
  obtain rfl := not_not.1 hne
  refine (ConsumesAt.u32 (.inl (by decide))).bind fun version _ hversion => ?_
  rw [hversion, length_u32Bytes]
  refine ConsumesAt.bind_nil (Consumes.check fun _ => nofun) fun _ hle => ?_
  refine (ConsumesAt.u32 (.inl (by decide))).bind fun numFragments _ hnum => .of ?_
  refine Consumes.bind_nil (Consumes.check fun _ => nofun) fun _ hfragments => ?_
  refine (consumes_fragments maxOps _ (Nat.zero_le maxOps)).bind fun fragments _ ⟨hcount, hused, hops, hall⟩ => ?_
  have hpool : Consumes (readConstants version total maxConstants) (fun pool used =>
      pool.length ≤ maxConstants ∧ (¬ 2 ≤ version → pool = []) ∧ used = if 2 ≤ version then
        u64Bytes (UInt64.ofNat pool.length) ++ f64Bytes pool else []) (· ≠ .panic) := by
    rw [readConstants]
    split
    · exact (consumes_pool maxConstants).mono fun _ _ ⟨hle, hused⟩ => ⟨hle, fun h => absurd ‹_› h, hused⟩
    · exact .pure ⟨Nat.zero_le _, fun _ => rfl, rfl⟩
  refine hpool.bind fun pool _ ⟨hle', hnil, hpool⟩ => .pure ?_
  subst hmagic hversion hnum hused hpool
  refine ⟨⟨version, ⟨not_not.1 hle, by rw [hcount]; exact numFragments.toNat_lt, hall, hnil⟩, ?_⟩, rfl, ?_, ?_, hle'⟩
  · rw [encode, hcount, UInt32.ofNat_toNat, List.append_nil]
  · rw [hcount]
    exact Nat.le_of_not_lt hfragments
  · rw [Nat.zero_add] at hops
    exact hops

end

/-! ### The codec -/

theorem length_allOps_le (g : BmlGraph) : g.allOps.length ≤ (g.fragments.flatMap Fragment.encode).length := by
  rw [allOps]
  induction g.fragments with
  | nil => exact le_rfl
  | cons f fragments ih =>
    rw [List.flatMap_cons, List.flatMap_cons, List.length_append, List.length_append, Fragment.encode, List.length_append]
    have := RpnOp.length_le_encode f.ops
    omega

/-- Where the bytes are counted in `usize`, so are the constants and the operations. -/
theorem length_le_encode {version : UInt32} {g : BmlGraph} (h : Holds version g) :
    g.allOps.length + g.constPool.length * 8 + 12 ≤ (encode version g).length := by
  have hops := g.length_allOps_le
  have hpool := length_f64Bytes g.constPool
  by_cases hversion : 2 ≤ version
  · simp only [encode, if_pos hversion, List.length_append, length_u32Bytes]
    omega
  · simp only [encode, if_neg hversion, h.pool hversion, List.length_append, length_u32Bytes, List.length_nil]
    omega

theorem deserialize_encode {version : UInt32} {g : BmlGraph} {threshold maxFragments maxOps maxConstants : Nat} (h : Holds version g)
    (hlen : (encode version g).length + 8 + g.constPool.length * 8 < 2 ^ 64) (hfragments : g.fragments.length ≤ maxFragments)
    (hops : g.allOps.length ≤ maxOps) (hpool : g.constPool.length ≤ maxConstants) :
    deserializeWithLimits (encode version g) threshold maxFragments maxOps maxConstants = .ok { g with threshold } := by
  have hle := length_le_encode h
  have hread : Reads (readGraph (encode version g).length threshold maxFragments maxOps maxConstants) (encode version g)
      { g with threshold } := reads_graph h (by omega) (by omega) hfragments hops hpool
  have hread := hread []
  rw [List.append_nil] at hread
  rw [deserializeWithLimits, hread, ok_bind']
  rfl

/-- Decoding fails with an error or returns a graph whose encoding is the whole input. -/
theorem sat_deserialize (bytes : List UInt8) (threshold maxFragments maxOps maxConstants : Nat) :
    Sat (deserializeWithLimits bytes threshold maxFragments maxOps maxConstants) (fun g => (∃ version, Holds version g ∧
      bytes = encode version g) ∧ g.threshold = threshold ∧ g.fragments.length ≤ maxFragments ∧ g.allOps.length ≤ maxOps ∧
      g.constPool.length ≤ maxConstants) (· ≠ .panic) := by
  refine (consumes_graph threshold maxFragments maxOps maxConstants bytes).bind ?_
  rintro ⟨g, rest⟩ ⟨used, hbytes, ⟨version, hholds, hused⟩, hlimits⟩
  refine (Sat.failIf fun _ => nofun).bind fun _ hrest => ?_
  rw [not_not.1 hrest, List.append_nil, hused] at hbytes
  exact ⟨⟨version, hholds, hbytes⟩, hlimits⟩

/-- An encoding holds its version after the first word. -/
theorem version_eq {version version' : UInt32} {g : BmlGraph} (h : ((encode version g).drop 4).take 4 = u32Bytes version') :
    version = version' := by
  rw [encode, List.drop_left' (length_u32Bytes _), List.take_left' (length_u32Bytes _)] at h
  rw [← u32Of_u32Bytes version, h, u32Of_u32Bytes]

theorem length_serialize_le {version : UInt32} {g : BmlGraph} (h : Holds version g) (hlen : (encode version g).length ≤ isizeMax) :
    g.serialize.length + 8 + g.constPool.length * 8 < 2 ^ 64 := by
  have hle := length_le_encode h
  unfold isizeMax at hlen
  rw [serialize_eq]
  by_cases hversion : 2 ≤ version
  · simp only [encode, if_pos hversion, if_pos g.two_le_serialVersion, List.length_append, length_u32Bytes] at hlen hle ⊢
    omega
  · simp only [encode, if_neg hversion, if_pos g.two_le_serialVersion, h.pool hversion, List.length_append, length_u32Bytes,
      List.length_nil, length_u64Bytes, length_f64Bytes] at hlen hle ⊢
    omega

/-- A graph is read back as it was written, constants with their bits; a byte string is decoded without a panic, and what is
accepted is the whole encoding of a graph within the limits, which is read back once it is written again. -/
theorem codec_spec :
    (∀ (g : BmlGraph) (threshold : Nat), g.fragments.length < 2 ^ 32 → (∀ f ∈ g.fragments, f.ops.length < 2 ^ 32) →
      g.serialize.length ≤ isizeMax → deserialize g.serialize threshold = .ok { g with threshold }) ∧
    ∀ (bytes : List UInt8) (threshold maxFragments maxOps maxConstants : Nat),
      Sat (deserializeWithLimits bytes threshold maxFragments maxOps maxConstants) (fun g =>
        (∃ version, bytes = encode version g) ∧
        g.fragments.length ≤ maxFragments ∧ g.allOps.length ≤ maxOps ∧ g.constPool.length ≤ maxConstants ∧
        (bytes.length ≤ isizeMax → deserializeWithLimits g.serialize threshold maxFragments maxOps maxConstants = .ok g) ∧
        ((bytes.drop 4).take 4 = u32Bytes g.serialVersion → g.serialize = bytes)) (· ≠ .panic) := by
  constructor
  · intro g threshold hfragments hops hlen
    have hholds := holds_serialVersion hfragments hops
    rw [serialize_eq] at hlen ⊢
    have hle := length_le_encode hholds
    have hmax : isizeMax ≤ usizeMax := by decide
    have hsum := length_serialize_le hholds hlen
    rw [serialize_eq] at hsum
    have hcount : 2 ^ 32 ≤ usizeMax := by decide
    exact deserialize_encode hholds hsum (by omega) (by omega) (by omega)
  · intro bytes threshold maxFragments maxOps maxConstants
    refine (sat_deserialize bytes threshold maxFragments maxOps maxConstants).mono ?_ fun _ he => he
    rintro g ⟨⟨version, hholds, rfl⟩, rfl, hfragments, hops, hpool⟩
    have hholds' := holds_serialVersion hholds.fragments fun f hf => (hholds.ops f hf).1
    refine ⟨⟨version, rfl⟩, hfragments, hops, hpool, fun hlen => ?_, fun hversion => ?_⟩
    · have hsum := length_serialize_le hholds hlen
      rw [serialize_eq] at hsum ⊢
      exact deserialize_encode hholds' hsum hfragments hops hpool
    · rw [serialize_eq, version_eq hversion]

end BmlGraph
end BmlSys
