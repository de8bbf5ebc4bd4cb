import BmlSys.Compiler.GraphCodecSpec
import BmlSys.Runtime.GraphRpc
import BmlSys.Runtime.GraphSpec

/-!
# Remote execution of a graph is local execution

A request that was encoded is decoded to the graph, the inputs and the buffer it was made of, so the peer runs what a
local run would. Every payload is answered by a rejection or by a complete record.
-/

namespace BmlSys
open BytePack Except

namespace GraphRpc
variable (fpu : Fpu) (reserve : Nat → Bool)

/-- Validation and execution on this side. -/
def executeLocal (graph : BmlGraph) (inputs : List F64) (buffer : ResultBuffer) : Except (Fault GraphError) GraphResult := do
  let validated ← ValidatedGraph.new graph inputs.length buffer.nSlots buffer.slotSize limits
  match validated.execute fpu reserve inputs buffer with
  | (.ok value, buffer) => pure { value, buffer := buffer.data }
  | (.error e, _) => .error e

/-! ### Words and values at positions -/

theorem u32At_append {before after : List UInt8} {x : UInt32} {offset : Nat} (h : before.length = offset) :
    u32At (before ++ (u32Bytes x ++ after)) offset = .ok x.toNat := by
  rw [u32At, List.getRange?_append h (by rw [length_u32Bytes])]
  show Except.ok (u32Of (u32Bytes x)).toNat = _
  rw [u32Of_u32Bytes]

def wordBytes (fields : List Nat) : List UInt8 := fields.flatMap fun n => u32Bytes (UInt32.ofNat n)

@[simp] theorem length_wordBytes (fields : List Nat) : (wordBytes fields).length = fields.length * 4 := by
  simp [wordBytes, List.length_flatMap]

theorem u32At_wordBytes {fields : List Nat} {n k offset : Nat} (h : fields[k]? = some n) (hn : n < 2 ^ 32) (hoffset : k * 4 = offset)
    (rest : List UInt8) : u32At (wordBytes fields ++ rest) offset = .ok n := by
  obtain ⟨hk, rfl⟩ := List.getElem?_eq_some_iff.1 h
  have hsplit : wordBytes fields ++ rest =
      wordBytes (fields.take k) ++ (u32Bytes (UInt32.ofNat fields[k]) ++ (wordBytes (fields.drop (k + 1)) ++ rest)) := by
    conv_lhs => rw [← List.take_append_drop k fields, List.drop_eq_getElem_cons hk]
    simp only [wordBytes, List.flatMap_append, List.flatMap_cons, List.append_assoc]
  rw [hsplit, u32At_append, UInt32.toNat_ofNat_of_lt' hn]
  rw [length_wordBytes, List.length_take_of_le hk.le, hoffset]

theorem sat_u32At (bytes : List UInt8) (offset : Nat) : Sat (u32At bytes offset) (· < 2 ^ 32) (· ≠ .panic) :=
  (Sat.okOr fun _ => nofun).bind fun word _ => (u32Of word).toNat_lt

theorem sat_slice {bytes : List UInt8} {start stop : Nat} (h : start ≤ stop) (h' : stop ≤ bytes.length) :
    Sat (slice bytes start stop) (fun part => part.length = stop - start) (· ≠ .panic) := by
  rw [slice, List.getRange?, if_pos ⟨h, h'⟩]
  show List.length _ = _
  rw [List.length_drop, List.length_take_of_le h']

theorem slice_append {before middle after : List UInt8} {start stop : Nat} (h : before.length = start)
    (h' : start + middle.length = stop) : slice (before ++ (middle ++ after)) start stop = .ok middle := by
  rw [slice, List.getRange?_append h h']
  rfl

/-- Values are read back with their bits, where there is memory for them. -/
theorem values_f64Bytes (xs : List F64) : values reserve (f64Bytes xs) =
    if reserve xs.length then .ok xs else .error (invalid "graph value allocation failed") := by
  rw [values, length_f64Bytes, Nat.mul_div_cancel _ (by decide), failIf, f64Chunks_f64Bytes]
  cases reserve xs.length <;> rfl

theorem sat_values {n : Nat} {bytes : List UInt8} (h : bytes.length = n * 8) :
    Sat (values reserve bytes) (fun xs => xs.length = n) (· ≠ .panic) :=
  (Sat.failIf fun _ => nofun).bind fun _ _ => by
    exact (f64Bytes_f64Chunks h).1

theorem fromVec_data (buffer : ResultBuffer) : ResultBuffer.fromVec buffer.nSlots buffer.slotSize buffer.data = some buffer := by
  have h : checkedMul buffer.nSlots buffer.slotSize = some buffer.data.length := by
    rw [checkedMul, ← buffer.size, if_pos buffer.bound]
  rw [ResultBuffer.fromVec, dif_pos h]

theorem fromVec_eq_some {nSlots slotSize : Nat} {data : List F64} {buffer : ResultBuffer}
    (h : ResultBuffer.fromVec nSlots slotSize data = some buffer) :
    buffer.nSlots = nSlots ∧ buffer.slotSize = slotSize ∧ buffer.data = data := by
  rw [ResultBuffer.fromVec] at h
  split at h
  · cases h
    exact ⟨rfl, rfl, rfl⟩
  · cases h

/-! ### Every payload -/

theorem sat_graphError {α : Type} {x : Except (Fault GraphError) α} {Q : α → Prop} (h : Sat x Q (· ≠ .panic)) :
    Sat (x.mapError ofGraphError) Q (· ≠ .panic) := h.mapError fun e he => by
  cases e with
  | panic => exact absurd rfl he
  | error e => exact nofun

/-- A request fails without a panic or returns a buffer of the announced size. -/
theorem sat_executeRequest (payload : List UInt8) : Sat (executeRequest fpu reserve payload) (fun result =>
    ∃ slots slotSize, u32At payload 8 = .ok slots ∧ u32At payload 12 = .ok slotSize ∧
      result.buffer.length = slots * slotSize ∧ result.buffer.length ≤ limits.maxValues) (· ≠ .panic) := by
  have hat (offset : Nat) : Sat (u32At payload offset) (fun n => u32At payload offset = .ok n) (· ≠ .panic) :=
    Sat.iff_forall.2 ⟨fun _ h => h, fun _ h => (sat_u32At payload offset).error h⟩
  refine (Sat.failIf fun _ => nofun).bind fun _ _ => (hat 0).bind fun _ _ => (Sat.failIf fun _ => nofun).bind fun _ _ => ?_
  refine (hat 4).bind fun inputs _ => (hat 8).bind fun slots hslots => (hat 12).bind fun slotSize hslotSize => ?_
  refine (hat 16).bind fun graphLen _ => (Sat.okOr fun _ => nofun).bind fun bufferLen hbufferLen => ?_
  refine (Sat.okOr fun _ => nofun).bind fun count hcount => (Sat.failIf fun _ => nofun).bind fun _ hmax => ?_
  refine (Sat.okOr fun _ => nofun).bind fun graphStart hstart => (Sat.failIf fun _ => nofun).bind fun _ hlen => ?_
  obtain ⟨-, rfl⟩ := checkedMul_eq_some.1 hbufferLen
  obtain ⟨-, rfl⟩ := checkedAdd_eq_some.1 hcount
  obtain ⟨_, hmul, hadd⟩ := Option.bind_eq_some_iff.1 hstart
  obtain ⟨-, rfl⟩ := checkedMul_eq_some.1 hmul
  obtain ⟨-, rfl⟩ := checkedAdd_eq_some.1 hadd
  obtain ⟨-, hlen⟩ := checkedAdd_eq_some.1 (not_not.1 hlen)
  refine (sat_slice (by omega) le_rfl).bind fun graphBytes _ => ?_
  have hgraph : Sat (BmlGraph.deserializeWithLimits graphBytes 32768 limits.maxOps limits.maxOps limits.maxValues) (fun _ => True)
      (· ≠ .panic) := (BmlGraph.sat_deserialize _ _ _ _ _).mono (fun _ _ => trivial) fun _ he => he
  refine (hgraph.mapError ?_).bind fun graph _ => ?_
  · rintro (_ | message) he
    · exact absurd rfl he
    · exact nofun
  refine (sat_graphError (ValidatedGraph.sat_validate graph inputs slots slotSize none limits)).bind fun v hv => ?_
  obtain ⟨-, -, -, -, -, hpreflight⟩ := hv
  refine (sat_slice (by omega) (by omega)).bind fun inputBytes hinputBytes => ?_
  refine (sat_values reserve (by rw [hinputBytes, Nat.add_sub_cancel_left])).bind fun inputValues _ => ?_
  refine (sat_slice (by omega) (by omega)).bind fun initialBytes hinitialBytes => ?_
  refine (sat_values reserve (n := slots * slotSize) (by rw [hinitialBytes]; omega)).bind fun initial _ => ?_
  refine (Sat.okOr fun _ => nofun).bind fun buffer hbuffer => ?_
  obtain ⟨hnSlots, hbufferSize, -⟩ := fromVec_eq_some hbuffer
  have hrun := hpreflight.sat_execute fpu reserve inputValues buffer
  generalize v.execute fpu reserve inputValues buffer = run at hrun
  obtain ⟨result, buffer'⟩ := run
  cases result with
  | error e =>
    cases e with
    | panic => exact absurd rfl hrun
    | error e => exact nofun
  | ok value =>
    have hsize : buffer'.data.length = slots * slotSize := by
      rw [buffer'.size, hrun.1, hrun.2, hnSlots, hbufferSize]
    refine ⟨slots, slotSize, hslots, hslotSize, hsize, ?_⟩
    rw [hsize]
    omega

theorem length_successRecord (result : GraphResult) : (successRecord result).length = 20 + 8 * result.buffer.length := by
  simp only [successRecord, List.length_append, length_u32Bytes, length_u64Bytes, length_f64Bytes]
  omega

/-! ### Encoded requests -/

theorem header_eq_ok {fields : List Nat} {words : List UInt8} (h : header fields = .ok words) :
    (∀ n ∈ fields, n < 2 ^ 32) ∧ words = wordBytes fields := by
  obtain ⟨parts, hparts, hwords⟩ := bind_eq_ok.1 h
  obtain rfl := pure_eq_ok.1 hwords
  have hfields : List.Forall₂ (fun n part => n < 2 ^ 32 ∧ part = u32Bytes (UInt32.ofNat n)) fields parts :=
    (Sat.mapM_forall (E := fun _ => True) fun n _ => (Sat.failIf fun _ => trivial).bind fun _ hn => by
      exact ⟨Nat.lt_of_not_le hn, rfl⟩).ok hparts
  clear hparts h hwords
  induction hfields with
  | nil => exact ⟨fun _ h => (nomatch h), rfl⟩
  | cons hn _ ih => exact ⟨List.forall_mem_cons.2 ⟨hn.1, ih.1⟩, by rw [List.flatten_cons, ih.2, hn.2]; rfl⟩

theorem stored_eq {fragments : List Fragment} {start stored : Nat}
    (h : fragments.foldlM (fun n f => checkedAdd n f.ops.length) start = some stored) :
    stored = start + (fragments.flatMap Fragment.ops).length := by
  induction fragments generalizing start with
  | nil =>
    cases h
    rfl
  | cons f fragments ih =>
    rw [List.foldlM_cons] at h
    obtain ⟨n, hn, h⟩ := Option.bind_eq_some_iff.1 h
    obtain ⟨-, rfl⟩ := checkedAdd_eq_some.1 hn
    rw [ih h, List.flatMap_cons, List.length_append, Nat.add_assoc]

/-- The request, and what was checked before it was built. -/
structure Encoded (graph : BmlGraph) (inputs : List F64) (buffer : ResultBuffer) (p : List UInt8) : Prop where
  fragments : graph.fragments.length ≤ limits.maxOps
  ops : graph.allOps.length ≤ limits.maxOps
  pool : graph.constPool.length ≤ limits.maxValues
  values : inputs.length + buffer.data.length ≤ limits.maxValues
  size : (inputs.length + buffer.data.length) * 8 + 20 + graph.serialize.length ≤ maxWireBytes
  slots : buffer.nSlots < 2 ^ 32
  slotSize : buffer.slotSize < 2 ^ 32
  payload : p = wordBytes [1, inputs.length, buffer.nSlots, buffer.slotSize, graph.serialize.length] ++
    (f64Bytes inputs ++ (f64Bytes buffer.data ++ graph.serialize))

variable {reserve} {graph : BmlGraph} {inputs : List F64} {buffer : ResultBuffer} {p : List UInt8}

theorem encodeRequest_eq_ok (h : encodeRequest reserve graph inputs buffer = .ok p) : Encoded graph inputs buffer p := by
  obtain ⟨stored, hstored, h⟩ := bind_eq_ok.1 h
  obtain ⟨_, hbudget, h⟩ := bind_eq_ok.1 h
  obtain ⟨count, hcount, h⟩ := bind_eq_ok.1 h
  obtain ⟨_, hvalues, h⟩ := bind_eq_ok.1 h
  obtain ⟨size, hsize, h⟩ := bind_eq_ok.1 h
  obtain ⟨_, hwire, h⟩ := bind_eq_ok.1 h
  obtain ⟨_, -, h⟩ := bind_eq_ok.1 h
  obtain ⟨words, hwords, h⟩ := bind_eq_ok.1 h
  obtain rfl := pure_eq_ok.1 h
  have hstored := stored_eq (okOr_eq_ok.1 hstored)
  obtain ⟨-, rfl⟩ := checkedAdd_eq_some.1 (okOr_eq_ok.1 hcount)
  obtain ⟨_, hmul, hsize⟩ := Option.bind_eq_some_iff.1 (okOr_eq_ok.1 hsize)
  obtain ⟨_, hadd, hsize⟩ := Option.bind_eq_some_iff.1 hsize
  obtain ⟨-, rfl⟩ := checkedMul_eq_some.1 hmul
  obtain ⟨-, rfl⟩ := checkedAdd_eq_some.1 hadd
  obtain ⟨-, rfl⟩ := checkedAdd_eq_some.1 hsize
  simp only [failIf_eq_ok, not_or, not_lt] at hbudget hvalues hwire
  obtain ⟨hfields, rfl⟩ := header_eq_ok hwords
  rw [Nat.zero_add] at hstored
  refine ⟨hbudget.1, hstored ▸ hbudget.2.1, hbudget.2.2, hvalues, hwire, hfields _ (by simp), hfields _ (by simp), ?_⟩
  rw [f64Bytes_append, List.append_assoc, List.append_assoc]

theorem Encoded.word (h : Encoded graph inputs buffer p) (k : Nat) {n offset : Nat}
    (hk : [1, inputs.length, buffer.nSlots, buffer.slotSize, graph.serialize.length][k]? = some n) (hn : n < 2 ^ 32)
    (hoffset : k * 4 = offset) : u32At p offset = .ok n := by
  rw [h.payload]
  exact u32At_wordBytes hk hn hoffset _

theorem Encoded.slots_eq (h : Encoded graph inputs buffer p) : u32At p 8 = .ok buffer.nSlots := h.word 2 rfl h.slots rfl

theorem Encoded.slotSize_eq (h : Encoded graph inputs buffer p) : u32At p 12 = .ok buffer.slotSize :=
  h.word 3 rfl h.slotSize rfl

theorem Encoded.deserialize (h : Encoded graph inputs buffer p) :
    BmlGraph.deserializeWithLimits graph.serialize 32768 limits.maxOps limits.maxOps limits.maxValues =
      .ok { graph with threshold := 32768 } := by
  have hsmall : limits.maxOps < 2 ^ 32 := by decide
  have hops (f : Fragment) (hf : f ∈ graph.fragments) : f.ops.length < 2 ^ 32 := by
    have hle : f.ops.length ≤ graph.allOps.length := by
      rw [BmlGraph.allOps, List.flatMap_def]
      exact (List.sublist_flatten_of_mem (List.mem_map_of_mem hf)).length_le
    exact (hle.trans h.ops).trans_lt hsmall
  have hholds := BmlGraph.holds_serialVersion (h.fragments.trans_lt hsmall) hops
  have hlen : graph.serialize.length ≤ isizeMax := by
    have hsize := h.size
    unfold maxWireBytes at hsize
    unfold isizeMax
    omega
  have hsum := BmlGraph.length_serialize_le hholds (BmlGraph.serialize_eq graph ▸ hlen)
  rw [BmlGraph.serialize_eq] at hsum ⊢
  exact BmlGraph.deserialize_encode hholds hsum h.fragments h.ops h.pool

/-- Validation does not look at the threshold. -/
theorem new_threshold (graph : BmlGraph) (threshold inputs slots slotSize : Nat) :
    ValidatedGraph.new { graph with threshold } inputs slots slotSize limits =
      (ValidatedGraph.new graph inputs slots slotSize limits).map fun v => { v with graph := { v.graph with threshold } } := by
  have hmap {α β γ : Type} (x : Except (Fault GraphError) α) (f : α → Except (Fault GraphError) β) (g : β → γ) :
      (x >>= f).map g = x >>= fun a => (f a).map g := by
    cases x <;> rfl
  simp only [ValidatedGraph.new, ValidatedGraph.validate, hmap]
  rfl

/-- What the peer does with an encoded request. -/
theorem executeRequest_encoded (h : Encoded graph inputs buffer p) : executeRequest fpu reserve p = (do
    let v ← (ValidatedGraph.new graph inputs.length buffer.nSlots buffer.slotSize limits).mapError ofGraphError
    let inputValues ← values reserve (f64Bytes inputs)
    let initial ← values reserve (f64Bytes buffer.data)
    let buffer ← okOr (ResultBuffer.fromVec buffer.nSlots buffer.slotSize initial) (invalid "buffer layout mismatch")
    match v.execute fpu reserve inputValues buffer with
    | (.ok value, buffer) => pure { value, buffer := buffer.data }
    | (.error e, _) => .error (ofGraphError e)) := by
  have hvalues := h.values
  have hsize := h.size
  rw [show limits.maxValues = 1000000 from rfl] at hvalues
  rw [show maxWireBytes = 16777216 from rfl] at hsize
  have hlen : p.length = (inputs.length + buffer.data.length) * 8 + 20 + graph.serialize.length := by
    rw [h.payload]
    simp only [List.length_append, length_wordBytes, length_f64Bytes, List.length_cons, List.length_nil]
    omega
  have hwire : ¬ maxWireBytes < p.length := by
    rw [hlen]
    exact Nat.not_lt.2 h.size
  have hversion : u32At p 0 = .ok 1 := h.word 0 rfl (by decide) rfl
  have hinputs : u32At p 4 = .ok inputs.length := h.word 1 rfl (by omega) rfl
  have hgraphLen : u32At p 16 = .ok graph.serialize.length := h.word 4 rfl (by omega) rfl
  have hbufferLen : checkedMul buffer.nSlots buffer.slotSize = some buffer.data.length :=
    checkedMul_eq_some.2 ⟨buffer.size ▸ buffer.bound, buffer.size.symm⟩
  have hcount : checkedAdd inputs.length buffer.data.length = some (inputs.length + buffer.data.length) :=
    checkedAdd_eq_some.2 ⟨by omega, rfl⟩
  have hstart : (checkedMul (inputs.length + buffer.data.length) 8).bind (checkedAdd · 20) =
      some ((inputs.length + buffer.data.length) * 8 + 20) := by
    rw [checkedMul_eq_some.2 ⟨by omega, rfl⟩]
    exact checkedAdd_eq_some.2 ⟨by omega, rfl⟩
  have hend : checkedAdd ((inputs.length + buffer.data.length) * 8 + 20) graph.serialize.length = some p.length :=
    checkedAdd_eq_some.2 ⟨by omega, hlen.symm⟩
  have hgraph : slice p ((inputs.length + buffer.data.length) * 8 + 20) p.length = .ok graph.serialize := by
    have hp : p = (wordBytes [1, inputs.length, buffer.nSlots, buffer.slotSize, graph.serialize.length] ++
        (f64Bytes inputs ++ f64Bytes buffer.data)) ++ (graph.serialize ++ []) := by
      rw [h.payload, List.append_nil]
      simp only [List.append_assoc]
    conv_lhs => arg 1; rw [hp]
    refine slice_append ?_ hlen.symm
    simp only [List.length_append, length_wordBytes, length_f64Bytes, List.length_cons, List.length_nil]
    omega
  have hinputBytes : slice p 20 (20 + inputs.length * 8) = .ok (f64Bytes inputs) := by
    rw [h.payload]
    exact slice_append (length_wordBytes _) (by rw [length_f64Bytes])
  have hinitial : slice p (20 + inputs.length * 8) ((inputs.length + buffer.data.length) * 8 + 20) = .ok (f64Bytes buffer.data) := by
    rw [h.payload, ← List.append_assoc]
    refine slice_append ?_ (by rw [length_f64Bytes]; omega)
    rw [List.length_append, length_wordBytes, length_f64Bytes]
    rfl
  have hok {α : Type} (a : α) (e : Fault IoError) : okOr (some a) e = .ok a := rfl
  rw [executeRequest, failIf, if_neg hwire, ok_bind', hversion, ok_bind', failIf, if_neg (not_not_intro rfl), ok_bind', hinputs, ok_bind',
    h.slots_eq, ok_bind', h.slotSize_eq, ok_bind', hgraphLen, ok_bind', hbufferLen, hok, ok_bind', hcount, hok, ok_bind', failIf,
    if_neg (Nat.not_lt.2 h.values), ok_bind', hstart, hok, ok_bind', failIf, if_neg (not_not_intro hend), ok_bind', hgraph, ok_bind',
    h.deserialize]
  show (ValidatedGraph.new { graph with threshold := 32768 } _ _ _ _).mapError ofGraphError >>= _ = _
  rw [new_threshold, hinputBytes]
  cases ValidatedGraph.new graph inputs.length buffer.nSlots buffer.slotSize limits with
  | error e => rfl
  | ok v =>
    show (values reserve (f64Bytes inputs) >>= fun inputValues => slice p _ _ >>= _) = _
    rw [hinitial]
    rfl

/-- An encoded request is answered as a local run is, where the peer has memory for the values. -/
theorem executeRequest_eq (h : Encoded graph inputs buffer p) (result : GraphResult) :
    executeRequest fpu reserve p = .ok result ↔
      executeLocal fpu reserve graph inputs buffer = .ok result ∧ reserve inputs.length = true ∧ reserve buffer.data.length = true := by
  rw [executeRequest_encoded fpu h, executeLocal, values_f64Bytes, values_f64Bytes]
  cases ValidatedGraph.new graph inputs.length buffer.nSlots buffer.slotSize limits with
  | error e => exact ⟨fun h => (nomatch h), fun h => (nomatch h.1)⟩
  | ok v =>
    cases reserve inputs.length with
    | false => exact ⟨fun h => (nomatch h), fun h => (nomatch h.2.1)⟩
    | true =>
      cases reserve buffer.data.length with
      | false => exact ⟨fun h => (nomatch h), fun h => (nomatch h.2.2)⟩
      | true =>
        show (okOr (ResultBuffer.fromVec buffer.nSlots buffer.slotSize buffer.data) _ >>= _) = _ ↔ _
        rw [fromVec_data]
        rcases hrun : v.execute fpu reserve inputs buffer with ⟨value | value, buffer'⟩
        · simp [okOr, hrun]
        · simp [okOr, hrun]

/-! ### Responses -/

theorem decodeResponse_rejection (expected : Nat) :
    decodeResponse reserve rejection expected = .error (invalid "remote graph request rejected") := rfl

theorem decodeResponse_successRecord {result : GraphResult} {expected : Nat} (hlen : result.buffer.length = expected)
    (hmax : expected ≤ limits.maxValues) : decodeResponse reserve (successRecord result) expected =
      if reserve expected then .ok result else .error (invalid "graph value allocation failed") := by
  rw [show limits.maxValues = 1000000 from rfl] at hmax
  have htotal : (successRecord result).length = expected * 8 + 20 := by
    rw [length_successRecord, hlen]
    omega
  have hwire : ¬ maxWireBytes < (successRecord result).length := by
    rw [htotal, show maxWireBytes = 16777216 from rfl]
    omega
  have hversion : u32At (successRecord result) 0 = .ok 1 := by
    rw [successRecord]
    simp only [List.append_assoc]
    exact @u32At_append [] _ 1 0 rfl
  have hstatus : u32At (successRecord result) 4 = .ok 0 := by
    rw [successRecord]
    simp only [List.append_assoc]
    exact @u32At_append (u32Bytes 1) _ 0 4 rfl
  have hcount : u32At (successRecord result) 16 = .ok expected := by
    rw [successRecord, List.append_assoc _ (u32Bytes (UInt32.ofNat result.buffer.length)), hlen]
    refine (u32At_append ?_).trans (congrArg _ (UInt32.toNat_ofNat_of_lt' (show expected < 2 ^ 32 by omega)))
    simp only [List.length_append, length_u32Bytes, length_u64Bytes]
  have hvalue : slice (successRecord result) 8 16 = .ok (u64Bytes result.value.bits) := by
    rw [successRecord]
    rw [List.append_assoc _ (u32Bytes (UInt32.ofNat result.buffer.length)), List.append_assoc _ (u64Bytes result.value.bits)]
    exact slice_append rfl rfl
  have hbuffer : slice (successRecord result) 20 (successRecord result).length = .ok (f64Bytes result.buffer) := by
    have hend : 20 + (f64Bytes result.buffer).length = (successRecord result).length := by
      rw [length_f64Bytes, length_successRecord]
      omega
    have hnil : successRecord result = (u32Bytes 1 ++ u32Bytes 0 ++ u64Bytes result.value.bits ++
        u32Bytes (UInt32.ofNat result.buffer.length)) ++ (f64Bytes result.buffer ++ []) := by
      rw [List.append_nil, successRecord]
    rw [← hend, hnil]
    refine slice_append ?_ rfl
    simp only [List.length_append, length_u32Bytes, length_u64Bytes]
  have hsize : (checkedMul expected 8).bind (checkedAdd · 20) = some (successRecord result).length := by
    rw [checkedMul_eq_some.2 ⟨by omega, rfl⟩, htotal]
    exact checkedAdd_eq_some.2 ⟨by omega, rfl⟩
  rw [decodeResponse, failIf, if_neg hwire, ok_bind', hversion, ok_bind', failIf, if_neg (not_not_intro rfl), ok_bind', hstatus, ok_bind',
    failIf, if_neg (not_not_intro rfl), ok_bind', hcount, ok_bind', failIf,
    if_neg (not_or.2 ⟨not_not_intro rfl, not_not_intro hsize⟩), ok_bind', hvalue, ok_bind', hbuffer, ok_bind', values_f64Bytes, hlen,
    u64Of_u64Bytes]
  cases reserve expected <;> rfl

/-- The response of the peer is the result of a local run, under the allocators of both sides; every payload is answered by
a rejection or by a complete record. -/
theorem remote_eq_local (client worker : Nat → Bool) :
    (∀ (graph : BmlGraph) (inputs : List F64) (buffer : ResultBuffer) (p : List UInt8),
      encodeRequest client graph inputs buffer = .ok p → ∃ response, handleRequest fpu worker p = .ok response ∧
        decodeResponse client response buffer.data.length ≠ .error .panic ∧
        ∀ result, decodeResponse client response buffer.data.length = .ok result ↔
          executeLocal fpu worker graph inputs buffer = .ok result ∧
            worker inputs.length = true ∧ worker buffer.data.length = true ∧ client buffer.data.length = true) ∧
    ∀ payload, ∃ response, handleRequest fpu worker payload = .ok response ∧
      (response = rejection ∧ response.length = 8 ∨ ∃ result slots slotSize, response = successRecord result ∧
        u32At payload 8 = .ok slots ∧ u32At payload 12 = .ok slotSize ∧ result.buffer.length = slots * slotSize ∧
        response.length = 20 + 8 * (slots * slotSize)) := by
  constructor
  · intro graph inputs buffer p hp
    have hencoded := encodeRequest_eq_ok hp
    have hlocal := @executeRequest_eq fpu worker _ _ _ _ hencoded
    have hsat := sat_executeRequest fpu worker p
    rw [handleRequest]
    rcases ok_or_error (executeRequest fpu worker p) with ⟨result, hresult⟩ | ⟨e, he⟩
    · obtain ⟨slots, slotSize, hslots, hslotSize, hlen, hmax⟩ := hsat.ok hresult
      cases hencoded.slots_eq.symm.trans hslots
      cases hencoded.slotSize_eq.symm.trans hslotSize
      rw [← buffer.size] at hlen
      have hdecode := @decodeResponse_successRecord client _ _ hlen (hlen ▸ hmax)
      obtain ⟨hlocal, hinputs, hbuffer⟩ := (hlocal result).1 hresult
      rw [hresult]
      refine ⟨_, rfl, ?_, fun result' => ?_⟩
      · rw [hdecode]
        split <;> exact nofun
      · rw [hdecode, hlocal, hinputs, hbuffer]
        cases client buffer.data.length with
        | true => simp
        | false => simp
    · have hne := hsat.error he
      rw [he]
      cases e with
      | panic => exact absurd rfl hne
      | error e =>
        refine ⟨_, rfl, nofun, fun result => ⟨fun h => (nomatch h), fun h => ?_⟩⟩
        have hresult := (hlocal result).2 ⟨h.1, h.2.1, h.2.2.1⟩
        rw [he] at hresult
        cases hresult
  · intro payload
    have hsat := sat_executeRequest fpu worker payload
    rw [handleRequest]
    rcases ok_or_error (executeRequest fpu worker payload) with ⟨result, hresult⟩ | ⟨e, he⟩
    · obtain ⟨slots, slotSize, hslots, hslotSize, hlen, -⟩ := hsat.ok hresult
      rw [hresult]
      refine ⟨_, rfl, .inr ⟨result, slots, slotSize, rfl, hslots, hslotSize, hlen, ?_⟩⟩
      rw [length_successRecord, hlen]
    · have hne := hsat.error he
      rw [he]
      cases e with
      | panic => exact absurd rfl hne
      | error e => exact ⟨_, rfl, .inl ⟨rfl, rfl⟩⟩

end GraphRpc
end BmlSys
