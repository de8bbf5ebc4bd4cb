import BmlSys.Compiler.DistributedCodecSpec
import BmlSys.Compiler.GraphDirectory

/-!
# What the files of a scalar graph hold

The loader reads back what was written over any older directory. Whatever its files hold, and however they change while
they are read, it ends without a panic, within its budgets, and accepts only files that are the whole encoding of the
result.
-/

namespace BmlSys
open Reader BytePack Except
open Distributed (ModelConfig Known utf8)

namespace GraphDirectory
variable {reserve : Nat → Bool}

theorem checkedSub_of_le {a b : Nat} (h : b ≤ a) : checkedSub a b = some (a - b) := if_pos h

/-! ### Files -/

/-- The reads of an open file return `bytes`, in pieces, and then its end. -/
def OpenFile.Yields (file : OpenFile) (bytes : List UInt8) : Prop :=
  ∃ pieces : List (List UInt8), bytes = pieces.flatten ∧ file.read pieces.length = .ok [] ∧
    ∀ i piece, pieces[i]? = some piece → file.read i = .ok piece ∧ piece ≠ []

/-- A regular file that holds `bytes` and does not change. -/
structure Holds (file : Except String OpenFile) (bytes : List UInt8) : Prop where
  opened : ∃ f : OpenFile, file = .ok f ∧ f.metadata = .ok (true, UInt64.ofNat bytes.length) ∧ f.Yields bytes

/-- A file is read to its end within the budget, which bounds the number of reads. -/
theorem sat_readChunks (file : OpenFile) {budget fuel i : Nat} {bytes : List UInt8} (hfuel : budget < fuel + bytes.length)
    (hbytes : bytes.length ≤ budget) : Sat (readChunks reserve file budget fuel i bytes) (fun all =>
      all.length ≤ budget ∧ ∃ pieces : List (List UInt8), all = bytes ++ pieces.flatten ∧
        file.read (i + pieces.length) = .ok [] ∧
        ∀ j piece, pieces[j]? = some piece → file.read (i + j) = .ok piece ∧ piece ≠ []) (· ≠ .panic) := by
  induction fuel generalizing i bytes with
  | zero => omega
  | succ fuel ih =>
    have hread : Sat ((file.read i).mapError fun e => (Fault.error s!"graph read: {e}" : Fault String))
        (fun chunk => file.read i = .ok chunk) (· ≠ .panic) := by
      cases file.read i with
      | ok chunk => exact rfl
      | error e => exact Fault.error_ne_panic
    refine hread.bind fun chunk hchunk => ?_
    split
    · rename_i hnil
      subst hnil
      refine ⟨hbytes, [], by simp, hchunk, fun _ _ h => ?_⟩
      cases h
    · rename_i hne
      rw [checkedSub_of_le hbytes, okOr, ok_bind']
      refine (Sat.failIf fun _ => by simp).bind fun _ hroom =>
        (Sat.failIf fun _ => by simp).bind fun _ _ => ?_
      have hpos := List.length_pos_iff.2 hne
      refine (@ih (i + 1) (bytes ++ chunk) ?_ ?_).mono ?_ fun _ he => he
      · rw [List.length_append]
        omega
      · rw [List.length_append]
        omega
      · rintro all ⟨hall, pieces, rfl, hend, hpieces⟩
        refine ⟨hall, chunk :: pieces, by rw [List.flatten_cons, List.append_assoc], ?_, fun j piece hj => ?_⟩
        · rw [List.length_cons, Nat.add_comm pieces.length, ← Nat.add_assoc]
          exact hend
        · cases j with
          | zero =>
            obtain rfl := Option.some.inj hj
            exact ⟨hchunk, hne⟩
          | succ j =>
            rw [Nat.add_comm j, ← Nat.add_assoc]
            exact hpieces j piece hj

/-- A file that is within the budget is read. -/
theorem readChunks_ok {file : OpenFile} {pieces : List (List UInt8)} {budget fuel i : Nat} {bytes : List UInt8}
    (hfuel : pieces.length < fuel) (hroom : (bytes ++ pieces.flatten).length ≤ budget)
    (hreserve : ∀ n ≤ budget, reserve n = true) (hend : file.read (i + pieces.length) = .ok [])
    (hpieces : ∀ j piece, pieces[j]? = some piece → file.read (i + j) = .ok piece ∧ piece ≠ []) :
    readChunks reserve file budget fuel i bytes = .ok (bytes ++ pieces.flatten) := by
  induction pieces generalizing fuel i bytes with
  | nil =>
    obtain ⟨fuel, rfl⟩ := Nat.exists_eq_succ_of_ne_zero (Nat.ne_zero_of_lt hfuel)
    rw [List.length_nil, Nat.add_zero] at hend
    rw [readChunks, hend]
    simp [Except.mapError, pure, Except.pure, bind, Except.bind]
  | cons piece pieces ih =>
    obtain ⟨fuel, rfl⟩ := Nat.exists_eq_succ_of_ne_zero (Nat.ne_zero_of_lt hfuel)
    obtain ⟨hread, hne⟩ := hpieces 0 piece rfl
    rw [Nat.add_zero] at hread
    rw [List.flatten_cons, List.length_append, List.length_append] at hroom
    have hsub : ¬ budget - bytes.length < piece.length := by omega
    have hreserve' : ¬ reserve (bytes.length + piece.length) = false := by
      rw [hreserve _ (by omega)]
      exact Bool.noConfusion
    have hnext := @ih fuel (i + 1) (bytes ++ piece) (by simpa using hfuel)
      (by simp only [List.length_append]; omega) (by rw [Nat.add_right_comm]; exact hend)
      fun j p hj => by
        rw [Nat.add_right_comm]
        exact hpieces (j + 1) p hj
    rw [readChunks, hread]
    show (if piece = [] then _ else _) = _
    rw [if_neg hne, checkedSub_of_le (by omega), okOr, ok_bind', failIf, if_neg hsub, ok_bind', failIf, if_neg hreserve',
      ok_bind', hnext, List.flatten_cons, List.append_assoc]

theorem length_le_flatten {pieces : List (List UInt8)} (h : ∀ piece ∈ pieces, piece ≠ []) :
    pieces.length ≤ pieces.flatten.length := by
  induction pieces with
  | nil => exact le_rfl
  | cons piece pieces ih =>
    obtain ⟨hne, h⟩ := List.forall_mem_cons.1 h
    have hpos := List.length_pos_iff.2 hne
    have hle := ih h
    rw [List.flatten_cons, List.length_append, List.length_cons]
    omega

theorem sat_readFile (file : Except String OpenFile) (budget : Nat) :
    Sat (readFile reserve file budget) (fun p => p.1.length ≤ budget ∧ p.2 = budget - p.1.length ∧
      ∃ f : OpenFile, file = .ok f ∧ f.Yields p.1) (· ≠ .panic) := by
  cases file with
  | error e => exact nofun
  | ok f =>
    rw [readFile, Except.mapError, ok_bind']
    cases f.metadata with
    | error e => exact nofun
    | ok metadata =>
      rw [Except.mapError, ok_bind']
      refine (Sat.failIf fun _ => nofun).bind fun _ _ => ?_
      rw [readContents]
      refine (Sat.failIf fun _ => nofun).bind fun _ _ => ?_
      refine (sat_readChunks f (by simp) (Nat.zero_le budget)).bind ?_
      rintro bytes ⟨hle, pieces, hbytes, hend, hpieces⟩
      rw [checkedSub_of_le hle, okOr, ok_bind']
      rw [List.nil_append] at hbytes
      simp only [Nat.zero_add] at hend hpieces
      exact ⟨hle, rfl, f, rfl, pieces, hbytes, hend, hpieces⟩

theorem readFile_ok {file : Except String OpenFile} {bytes : List UInt8} {budget : Nat} (h : Holds file bytes)
    (hlen : bytes.length ≤ budget) (hbudget : budget ≤ usizeMax) (hreserve : ∀ n ≤ budget, reserve n = true) :
    readFile reserve file budget = .ok (bytes, budget - bytes.length) := by
  obtain ⟨f, rfl, hmetadata, pieces, rfl, hend, hpieces⟩ := h.opened
  have hdeclared : (UInt64.ofNat pieces.flatten.length).toNat = pieces.flatten.length :=
    UInt64.toNat_ofNat_of_lt' (lt_of_le_of_lt (hlen.trans hbudget) (by decide))
  have hmem : ∀ piece ∈ pieces, piece ≠ [] := fun piece hpiece => by
    obtain ⟨i, hi⟩ := List.mem_iff_getElem?.1 hpiece
    exact (hpieces i piece hi).2
  have hfuel : pieces.length < budget + 1 := Nat.lt_succ_of_le ((length_le_flatten hmem).trans hlen)
  have hfile : ¬ (true = false ∨ budget < (UInt64.ofNat pieces.flatten.length).toNat) := by
    rw [hdeclared]
    exact fun h => h.elim Bool.noConfusion (Nat.not_lt.2 hlen)
  have hallocate : ¬ reserve pieces.flatten.length = false := by
    rw [hreserve _ hlen]
    exact Bool.noConfusion
  have hread : readChunks reserve f budget (budget + 1) 0 [] = .ok ([] ++ pieces.flatten) :=
    readChunks_ok hfuel hlen hreserve (by rwa [Nat.zero_add]) fun j piece hj => by
      rw [Nat.zero_add]
      exact hpieces j piece hj
  rw [readFile, Except.mapError, ok_bind', hmetadata, Except.mapError, ok_bind']
  show (failIf (true = false ∨ budget < (UInt64.ofNat pieces.flatten.length).toNat) _ >>= fun _ => _) = _
  rw [failIf, if_neg hfile, ok_bind', hdeclared, readContents, failIf, if_neg hallocate, ok_bind', hread, ok_bind', List.nil_append, checkedSub_of_le hlen, okOr, ok_bind']
  rfl

/-! ### Records -/

open Cursor

theorem accepts_tag (version : UInt32) (op : RpnOp) : accepts version op.tag = true ↔
    op.isContext = false ∧ (op = .fmax → BmlGraph.bmlgraphSelectionVersion ≤ version) := by
  cases op <;> simp [accepts, RpnOp.tag, RpnOp.isContext]

theorem reads_op {version : UInt32} {op : RpnOp} (h : accepts version op.tag = true) : Reads (readOp version) op.encode op :=
  RpnOp.reads_encode h fun _ _ _ _ => rfl

theorem consumes_op (version : UInt32) :
    Consumes (readOp version) (fun op used => used = op.encode ∧ accepts version op.tag = true) (· ≠ .panic) :=
  RpnOp.consumes_read nofun (fun _ => nofun) fun _ _ _ => ⟨rfl, .inr nofun⟩

theorem reads_f64 (x : F64) : Reads f64 (u64Bytes x.bits) x := (Reads.u64 x.bits).ret rfl

theorem consumes_f64 : Consumes f64 (fun x used => used = u64Bytes x.bits ∧ True) (· ≠ .panic) :=
  (Consumes.u64 nofun).bind fun _ _ h => .pure ⟨by rw [h, List.append_nil], trivial⟩

theorem reads_length {n : Nat} (h : n < 2 ^ 64) : Reads length (u64Bytes (UInt64.ofNat n)) n :=
  (Reads.u64 _).ret (by rw [UInt64.toNat_ofNat_of_lt' h])

theorem consumes_length : Consumes length (fun n used => used = u64Bytes (UInt64.ofNat n)) (· ≠ .panic) :=
  (Consumes.u64 nofun).bind fun _ _ h => .pure (by rw [h, List.append_nil, UInt64.ofNat_toNat])

theorem reads_header {version : UInt32} {n : Nat} {config : ModelConfig} {pool : List F64} {limits : GraphLoadLimits}
    (hversion : Known version) (hn : n < 2 ^ 32) (hmax : n ≤ limits.maxFragments) (hpool : pool.length ≤ limits.maxConstants)
    (hlen : (headerBytes version n config pool).length ≤ limits.maxTotalBytes)
    (hreserve : ∀ n ≤ limits.maxTotalBytes, reserve n = true) :
    Reads (readHeader reserve limits) (headerBytes version n config pool) (version, n, config, pool) := by
  have hknown : ¬ (version ≠ BmlGraph.bmlgraphVersion ∧ version ≠ BmlGraph.bmlgraphSelectionVersion) := fun hne =>
    hversion.elim hne.1 hne.2
  have hcount : (UInt32.ofNat n).toNat = n := UInt32.toNat_ofNat_of_lt' hn
  have hbudget : limits.maxTotalBytes < 2 ^ 64 := lt_of_le_of_lt limits.addressable (by decide)
  simp only [headerBytes, Distributed.headerBytes, List.length_append, length_f64Bytes] at hlen
  have hallocate : ¬ reserve pool.length = false := by
    rw [hreserve _ (by omega)]
    exact Bool.noConfusion
  unfold headerBytes Distributed.headerBytes
  simp only [List.append_assoc]
  refine (Reads.u32 _).bind ((Reads.check (not_not_intro rfl)).bind_nil ((Reads.u32 _).bind ((Reads.check hknown).bind_nil ?_)))
  refine (Reads.u32 _).bind ?_
  rw [hcount]
  refine (Reads.check (Nat.not_lt.2 hmax)).bind_nil ((reads_length (by omega)).bind ((Reads.take rfl).bind ?_))
  refine (Reads.orFail (Distributed.fromUTF8?_utf8 config.architecture)).bind_nil ?_
  refine (Reads.u32 _).bind ((Reads.u32 _).bind ((Reads.u32 _).bind ((Reads.u32 _).bind ((Reads.u32 _).bind ?_))))
  refine (reads_length (by omega)).bind (Reads.remaining fun left hleft => ?_)
  rw [length_f64Bytes] at hleft
  refine (Reads.check (by omega)).bind_nil ((Reads.check hallocate).bind_nil ?_)
  exact (Reads.many fun x _ => reads_f64 x).ret rfl

theorem consumes_header (limits : GraphLoadLimits) : Consumes (readHeader reserve limits)
    (fun (version, n, config, pool) used => Known version ∧ used = headerBytes version n config pool ∧
      n ≤ limits.maxFragments ∧ pool.length ≤ limits.maxConstants) (· ≠ .panic) := by
  refine (Consumes.u32 nofun).bind fun magic _ hmagic => Consumes.bind_nil (Consumes.check fun _ => nofun) fun _ hne => ?_
  refine (Consumes.u32 nofun).bind fun version _ hversion => ?_
  refine Consumes.bind_nil (Consumes.check fun _ => nofun) fun _ hknown => ?_
  refine (Consumes.u32 nofun).bind fun count _ hcount => Consumes.bind_nil (Consumes.check fun _ => nofun) fun _ hmax => ?_
  refine consumes_length.bind fun architectureLength _ harch => ?_
  refine (Consumes.take _ nofun).bind fun bytes _ ⟨hbytes, hlen⟩ => ?_
  refine Consumes.bind_nil (Consumes.orFail fun _ => nofun) fun architecture htext => ?_
  refine (Consumes.u32 nofun).bind fun nLayers _ h₁ => (Consumes.u32 nofun).bind fun nHeads _ h₂ => ?_
  refine (Consumes.u32 nofun).bind fun nEmbd _ h₃ => (Consumes.u32 nofun).bind fun contextLength _ h₄ => ?_
  refine (Consumes.u32 nofun).bind fun vocabSize _ h₅ => consumes_length.bind fun constants _ h₆ => ?_
  refine Consumes.remaining.bind fun left _ h₇ => Consumes.bind_nil (Consumes.check fun _ => nofun) fun _ hroom => ?_
  refine Consumes.bind_nil (Consumes.check fun _ => nofun) fun _ _ => ?_
  refine (consumes_f64.many constants).bind fun pool _ ⟨hpool, hused, _⟩ => .pure ?_
  obtain rfl := not_not.1 hne
  rw [← Distributed.utf8_of_fromUTF8? htext] at hbytes
  subst hmagic hversion hcount harch hbytes h₁ h₂ h₃ h₄ h₅ h₆ h₇ hused
  refine ⟨?_, ?_, Nat.le_of_not_lt hmax, ?_⟩
  · by_contra h
    exact hknown ⟨fun heq => h (.inl heq), fun heq => h (.inr heq)⟩
  · simp only [headerBytes, Distributed.headerBytes, hlen, hpool, f64Bytes, UInt32.ofNat_toNat, List.append_assoc,
      List.append_nil, List.nil_append]
  · rw [hpool]
    omega

theorem reads_fragment {version : UInt32} {fragment : Fragment} {operationsLeft : Nat} (hlen : fragment.ops.length < 2 ^ 32)
    (hops : ∀ op ∈ fragment.ops, accepts version op.tag = true) (hmax : fragment.ops.length ≤ operationsLeft)
    (hreserve : reserve fragment.ops.length = true) : Reads (readFragment reserve version operationsLeft) fragment.encode
      (fragment, operationsLeft - fragment.ops.length) := by
  have hcount : (UInt32.ofNat fragment.ops.length).toNat = fragment.ops.length := UInt32.toNat_ofNat_of_lt' hlen
  have hallocate : ¬ reserve fragment.ops.length = false := by
    rw [hreserve]
    exact Bool.noConfusion
  have hle := RpnOp.length_le_encode fragment.ops
  refine (Reads.u32 _).bind (Reads.remaining fun left hleft => ?_)
  rw [hcount]
  refine (Reads.check (by omega)).bind_nil ((Reads.orFail (checkedSub_of_le hmax)).bind_nil ?_)
  exact (Reads.check hallocate).bind_nil ((Reads.many fun op hop => reads_op (hops op hop)).ret rfl)

theorem consumes_fragment (version : UInt32) (operationsLeft : Nat) :
    Consumes (readFragment reserve version operationsLeft) (fun (fragment, left) used => used = fragment.encode ∧
      fragment.ops.length ≤ operationsLeft ∧ left = operationsLeft - fragment.ops.length) (· ≠ .panic) := by
  refine (Consumes.u32 nofun).bind fun count _ hcount => Consumes.remaining.bind fun left _ hleft => ?_
  refine Consumes.bind_nil (Consumes.check fun _ => nofun) fun _ hroom => ?_
  have hle : count.toNat ≤ operationsLeft := by omega
  refine Consumes.bind_nil (Consumes.orFail fun h => ?_) fun left' hleft' => ?_
  · rw [checkedSub_of_le hle] at h
    cases h
  refine Consumes.bind_nil (Consumes.check fun _ => nofun) fun _ _ => ?_
  refine ((consumes_op version).many count.toNat).bind fun ops _ ⟨hlen, hused, _⟩ => .pure ?_
  rw [checkedSub_of_le hle] at hleft'
  obtain rfl := Option.some.inj hleft'
  subst hcount hleft hused
  refine ⟨?_, by rw [hlen]; exact hle, by rw [hlen]⟩
  rw [Fragment.encode, hlen, UInt32.ofNat_toNat, List.nil_append, List.append_nil]

/-- A record is read to its end. -/
theorem sat_finish (rest : List UInt8) : Sat (Cursor.finish rest) (fun _ => rest = []) (· ≠ .panic) := by
  rw [Cursor.finish, Reader.finish]
  split
  · assumption
  · exact Fault.error_ne_panic

theorem finish_nil : Cursor.finish [] = .ok ((), []) := rfl

/-! ### Fragments -/

/-- The fragments from number `i` on are the whole contents of their files. -/
theorem sat_loadFragments (dir : Directory) (version : UInt32) (n i bytesLeft operationsLeft : Nat) :
    Sat (loadFragments reserve dir version n i bytesLeft operationsLeft) (fun fragments => fragments.length = n ∧
      (fragments.flatMap Fragment.encode).length ≤ bytesLeft ∧
      (fragments.flatMap Fragment.ops).length ≤ operationsLeft ∧
      ∀ (j : Nat) (fragment : Fragment), fragments[j]? = some fragment →
        ∃ f : OpenFile, dir.fragment (i + j) = .ok f ∧ f.Yields fragment.encode) (· ≠ .panic) := by
  induction n generalizing i bytesLeft operationsLeft with
  | zero => exact ⟨rfl, Nat.zero_le _, Nat.zero_le _, fun _ _ h => (nomatch h)⟩
  | succ n ih =>
    refine (sat_readFile (dir.fragment i) bytesLeft).bind ?_
    rintro ⟨bytes, left⟩ ⟨hle, hleft, f, hfile, hyields⟩
    refine (consumes_fragment version operationsLeft bytes).bind ?_
    rintro ⟨⟨fragment, left'⟩, rest⟩ ⟨used, hbytes, hused, hops, hleft'⟩
    refine (sat_finish rest).bind fun _ hrest => ?_
    rw [hrest, List.append_nil, hused] at hbytes
    refine (ih (i + 1) left left').bind fun fragments hfragments => ?_
    obtain ⟨hlen, hsum, hsum', hfiles⟩ := hfragments
    simp only [hbytes] at hle hleft hyields
    refine ⟨by rw [List.length_cons, hlen], ?_, ?_, fun j fragment' hj => ?_⟩
    · rw [List.flatMap_cons, List.length_append]
      omega
    · rw [List.flatMap_cons, List.length_append]
      omega
    · cases j with
      | zero =>
        obtain rfl := Option.some.inj hj
        exact ⟨f, hfile, hyields⟩
      | succ j =>
        rw [Nat.add_comm j, ← Nat.add_assoc]
        exact hfiles j fragment' hj

theorem loadFragments_ok {dir : Directory} {version : UInt32} {fragments : List Fragment} {i bytesLeft operationsLeft : Nat}
    (hops : ∀ fragment ∈ fragments, fragment.ops.length < 2 ^ 32 ∧ ∀ op ∈ fragment.ops, accepts version op.tag = true)
    (hbytes : (fragments.flatMap Fragment.encode).length ≤ bytesLeft) (hbudget : bytesLeft ≤ usizeMax)
    (hmax : (fragments.flatMap Fragment.ops).length ≤ operationsLeft) (hreserve : ∀ n ≤ bytesLeft, reserve n = true)
    (hfiles : ∀ (j : Nat) (fragment : Fragment), fragments[j]? = some fragment → Holds (dir.fragment (i + j)) fragment.encode) :
    loadFragments reserve dir version fragments.length i bytesLeft operationsLeft = .ok fragments := by
  induction fragments generalizing i bytesLeft operationsLeft with
  | nil => rfl
  | cons fragment fragments ih =>
    obtain ⟨⟨hlen, haccepts⟩, hops⟩ := List.forall_mem_cons.1 hops
    rw [List.flatMap_cons, List.length_append] at hbytes hmax
    have hfile := readFile_ok (hfiles 0 fragment rfl) (by omega) hbudget hreserve
    have hsmall : fragment.ops.length ≤ fragment.encode.length := by
      rw [Fragment.encode, List.length_append]
      exact Nat.le_add_left_of_le (RpnOp.length_le_encode fragment.ops)
    have hread : readFragment reserve version operationsLeft (fragment.encode ++ []) =
        .ok ((fragment, operationsLeft - fragment.ops.length), []) :=
      reads_fragment hlen haccepts (by omega) (hreserve _ (by omega)) []
    rw [List.append_nil] at hread
    have hrest := @ih (i + 1) (bytesLeft - fragment.encode.length) (operationsLeft - fragment.ops.length) hops (by omega)
      (by omega) (by omega) (fun n hn => hreserve n (by omega)) fun j fragment' hj => by
        rw [Nat.add_right_comm]
        exact hfiles (j + 1) fragment' hj
    rw [Nat.add_zero] at hfile
    rw [List.length_cons, loadFragments, hfile, ok_bind']
    show (readFragment reserve version operationsLeft fragment.encode >>= fun _ => _) = _
    rw [hread, ok_bind']
    show (Cursor.finish [] >>= fun _ => _) = _
    rw [finish_nil, ok_bind', hrest]
    rfl

/-! ### The codec -/

/-- The files of the directory hold `files` while they are read. -/
structure Directory.Shows (dir : Directory) (files : Files) : Prop where
  header : ∀ bytes, files.header = some bytes → Holds dir.header bytes
  fragment : ∀ i bytes, files.fragment i = some bytes → Holds (dir.fragment i) bytes

/-- The bytes of the files of a result. -/
def totalBytes (version : UInt32) (config : ModelConfig) (constPool : List F64) (fragments : List Fragment) : Nat :=
  (headerBytes version fragments.length config constPool).length + (fragments.flatMap Fragment.encode).length

structure WithinLimits (result : CompilationResult) (limits : GraphLoadLimits) : Prop where
  bytes : totalBytes (graphVersion result.graph) result.config result.constPool result.graph.fragments ≤ limits.maxTotalBytes
  fragments : result.graph.fragments.length ≤ limits.maxFragments
  operations : result.graph.allOps.length ≤ limits.maxOperations
  constants : result.constPool.length ≤ limits.maxConstants

theorem known_graphVersion (graph : BmlGraph) : Known (graphVersion graph) := by
  rw [graphVersion]
  split
  · exact .inr rfl
  · exact .inl rfl

/-- Every operation that is written is known to the loader. -/
theorem accepts_graphVersion {graph : BmlGraph} {fragment : Fragment} (hfragment : fragment ∈ graph.fragments)
    {op : RpnOp} (hop : op ∈ fragment.ops) (hcontext : op.isContext = false) : accepts (graphVersion graph) op.tag = true := by
  refine (accepts_tag _ op).2 ⟨hcontext, fun hmax => ?_⟩
  have hany : graph.allOps.any (· = .fmax) = true :=
    List.any_eq_true.2 ⟨op, List.mem_flatMap.2 ⟨fragment, hfragment, hop⟩, by simpa using hmax⟩
  rw [graphVersion, if_pos hany]
  exact UInt32.le_refl _

theorem serializeToDir_ok {result : CompilationResult} {dir files : Files} (h : serializeToDir result dir = .ok files) :
    result.numFragments = result.graph.fragments.length ∧ result.graph.fragments.length < 2 ^ 32 ∧
    (∀ fragment ∈ result.graph.fragments, fragment.ops.length < 2 ^ 32 ∧ ∀ op ∈ fragment.ops, op.isContext = false) ∧
    files.header = some (headerBytes (graphVersion result.graph) result.graph.fragments.length result.config result.constPool) ∧
    ∀ (i : Nat) (fragment : Fragment), result.graph.fragments[i]? = some fragment → files.fragment i = some fragment.encode := by
  simp only [serializeToDir, bind_eq_ok, failIf_eq_ok, pure_eq_ok] at h
  obtain ⟨_, hcount, _, hsmall, _, hchecks, rfl⟩ := h
  rw [not_not] at hcount
  refine ⟨hcount, by omega, fun fragment hfragment => ?_, by rw [hcount], fun i fragment hi => ?_⟩
  · have hcheck := forM_eq_ok.1 hchecks fragment hfragment
    simp only [checkFragment, bind_eq_ok, failIf_eq_ok] at hcheck
    obtain ⟨_, hlen, hcontext⟩ := hcheck
    refine ⟨Nat.lt_of_not_le hlen, fun op hop => ?_⟩
    by_contra hne
    exact hcontext (List.any_eq_true.2 ⟨op, hop, by simpa using hne⟩)
  · show (result.graph.fragments[i]?.map Fragment.encode).or (dir.fragment i) = _
    rw [hi]
    rfl

/-- A file of a fragment has at least its count. -/
theorem length_le_encodes (fragments : List Fragment) : 4 * fragments.length ≤ (fragments.flatMap Fragment.encode).length := by
  induction fragments with
  | nil => exact le_rfl
  | cons fragment fragments ih =>
    rw [List.flatMap_cons, List.length_append, List.length_cons, Fragment.encode, List.length_append, length_u32Bytes]
    omega

/-- What was written is read back, over whatever the directory held. -/
theorem loadFromDir_serializeToDir {result : CompilationResult} {before files : Files} {dir : Directory}
    {limits : GraphLoadLimits} (hserialize : serializeToDir result before = .ok files) (hdir : dir.Shows files)
    (hlimits : WithinLimits result limits) (hreserve : ∀ n ≤ limits.maxTotalBytes, reserve n = true) :
    loadFromDirWithLimits reserve dir limits =
      .ok ({ constPool := [], fragments := result.graph.fragments, threshold := 0 }, result.constPool, result.config) := by
  obtain ⟨-, hsmall, hops, hheader, hfragments⟩ := serializeToDir_ok hserialize
  have hbytes := hlimits.bytes
  rw [totalBytes] at hbytes
  have hbudget := limits.addressable
  have hfile := readFile_ok (hdir.header _ hheader) (by omega) hbudget hreserve
  have hread : readHeader reserve limits (headerBytes (graphVersion result.graph) result.graph.fragments.length result.config
      result.constPool ++ []) = .ok ((_, _, _, _), []) :=
    reads_header (known_graphVersion result.graph) hsmall hlimits.fragments hlimits.constants (by omega) hreserve []
  rw [List.append_nil] at hread
  have hfour := length_le_encodes result.graph.fragments
  have hcount : ¬ (limits.maxTotalBytes - (headerBytes (graphVersion result.graph) result.graph.fragments.length result.config
      result.constPool).length) / 4 < result.graph.fragments.length := by omega
  have hallocate : ¬ reserve result.graph.fragments.length = false := by
    rw [hreserve _ (by omega)]
    exact Bool.noConfusion
  have hload : loadFragments reserve dir (graphVersion result.graph) result.graph.fragments.length 0 (limits.maxTotalBytes -
      (headerBytes (graphVersion result.graph) result.graph.fragments.length result.config result.constPool).length)
      limits.maxOperations = .ok result.graph.fragments := by
    refine loadFragments_ok (fun fragment hfragment => ⟨(hops fragment hfragment).1, fun op hop => ?_⟩) (by omega) (by omega)
      hlimits.operations (fun n hn => hreserve n (by omega)) fun j fragment hj => ?_
    · exact accepts_graphVersion hfragment hop ((hops fragment hfragment).2 op hop)
    · rw [Nat.zero_add]
      exact hdir.fragment j _ (hfragments j fragment hj)
  rw [loadFromDirWithLimits, hfile, ok_bind']
  show (readHeader reserve limits _ >>= fun _ => _) = _
  rw [hread, ok_bind']
  show (Cursor.finish [] >>= fun _ => _) = _
  rw [finish_nil, ok_bind', failIf, if_neg hcount, ok_bind', failIf, if_neg hallocate, ok_bind', hload]
  rfl

/-- What is loaded is the whole content of its files, within the limits. -/
theorem sat_loadFromDir (dir : Directory) (limits : GraphLoadLimits) :
    Sat (loadFromDirWithLimits reserve dir limits) (fun (graph, constPool, config) =>
      (∃ version, (∃ f : OpenFile, dir.header = .ok f ∧
          f.Yields (headerBytes version graph.fragments.length config constPool)) ∧
        totalBytes version config constPool graph.fragments ≤ limits.maxTotalBytes) ∧
      (∀ (i : Nat) (fragment : Fragment), graph.fragments[i]? = some fragment →
        ∃ f : OpenFile, dir.fragment i = .ok f ∧ f.Yields fragment.encode) ∧
      graph.fragments.length ≤ limits.maxFragments ∧ graph.allOps.length ≤ limits.maxOperations ∧
      constPool.length ≤ limits.maxConstants) (· ≠ .panic) := by
  refine (sat_readFile dir.header limits.maxTotalBytes).bind ?_
  rintro ⟨header, bytesLeft⟩ ⟨hle, hleft, f, hfile, hyields⟩
  refine (consumes_header limits header).bind ?_
  rintro ⟨⟨version, count, config, constPool⟩, rest⟩ ⟨used, hheader, hversion, hused, hfragments, hconstants⟩
  refine (sat_finish rest).bind fun _ hrest => ?_
  rw [hrest, List.append_nil, hused] at hheader
  refine (Sat.failIf fun _ => nofun).bind fun _ _ => (Sat.failIf fun _ => nofun).bind fun _ _ => ?_
  refine (sat_loadFragments dir version count 0 bytesLeft limits.maxOperations).bind fun fragments hloaded => ?_
  obtain ⟨hcount, hsum, hops, hfiles⟩ := hloaded
  simp only [hheader] at hle hleft hyields
  subst hcount
  refine ⟨⟨version, ⟨f, hfile, hyields⟩, ?_⟩, fun i fragment hi => ?_, hfragments, hops, hconstants⟩
  · show (headerBytes version fragments.length config constPool).length + (fragments.flatMap Fragment.encode).length ≤ _
    omega
  · have hi' := hfiles i fragment hi
    rwa [Nat.zero_add] at hi'

/-- A result is loaded as it was written, constants with their bits, over an older directory too; whatever the files hold
and however they change, loading ends without a panic and keeps its budgets, and what is loaded is all its files hold. -/
theorem directory_codec :
    (∀ (result : CompilationResult) (before files : Files) (dir : Directory) (limits : GraphLoadLimits) (reserve : Nat → Bool),
      serializeToDir result before = .ok files → dir.Shows files → WithinLimits result limits →
      (∀ n ≤ limits.maxTotalBytes, reserve n = true) → loadFromDirWithLimits reserve dir limits =
        .ok ({ constPool := [], fragments := result.graph.fragments, threshold := 0 }, result.constPool, result.config)) ∧
    ∀ (dir : Directory) (limits : GraphLoadLimits) (reserve : Nat → Bool),
      Sat (loadFromDirWithLimits reserve dir limits) (fun (graph, constPool, config) =>
        (∃ version, (∃ f : OpenFile, dir.header = .ok f ∧
            f.Yields (headerBytes version graph.fragments.length config constPool)) ∧
          totalBytes version config constPool graph.fragments ≤ limits.maxTotalBytes) ∧
        (∀ (i : Nat) (fragment : Fragment), graph.fragments[i]? = some fragment →
          ∃ f : OpenFile, dir.fragment i = .ok f ∧ f.Yields fragment.encode) ∧
        graph.fragments.length ≤ limits.maxFragments ∧ graph.allOps.length ≤ limits.maxOperations ∧
        constPool.length ≤ limits.maxConstants) (· ≠ .panic) :=
  ⟨fun _ _ _ _ _ _ => loadFromDir_serializeToDir, fun dir limits _ => sat_loadFromDir dir limits⟩

/-- A short file, read in one piece. -/
def shortFile (bytes : List UInt8) (h : bytes.length ≤ chunkSize) : OpenFile where
  metadata := .ok (true, UInt64.ofNat bytes.length)
  read i := .ok (if i = 0 then bytes else [])
  chunks i chunk hread := by
    split at hread
    · exact Except.ok.inj hread ▸ h
    · exact Except.ok.inj hread ▸ Nat.zero_le _

theorem holds_shortFile {bytes : List UInt8} (h : bytes.length ≤ chunkSize) (hne : bytes ≠ []) :
    Holds (.ok (shortFile bytes h)) bytes := by
  refine ⟨shortFile bytes h, rfl, rfl, [bytes], (List.flatten_singleton).symm, rfl, fun i piece hi => ?_⟩
  cases i with
  | zero =>
    obtain rfl := Option.some.inj hi
    exact ⟨rfl, hne⟩
  | succ i => cases hi

/-- One fragment with a selection, and one constant. -/
def selection : CompilationResult where
  graph := { constPool := [], fragments := [⟨[.one, .const 0, .fmax]⟩], threshold := 32 }
  constPool := [.one]
  config := ⟨"llama", 1, 2, 4, 8, 16⟩
  numFragments := 1

theorem directory_codec_selection : ∃ files dir, serializeToDir selection ⟨none, fun _ => some [1]⟩ = .ok files ∧
    loadFromDir (fun _ => true) dir = .ok ({ constPool := [], fragments := [⟨[.one, .const 0, .fmax]⟩], threshold := 0 },
      [.one], ⟨"llama", 1, 2, 4, 8, 16⟩) ∧ dir.Shows files := by
  have hheader : (headerBytes 4 1 selection.config selection.constPool).length ≤ chunkSize := by decide +kernel
  have hfragment : (Fragment.encode ⟨[.one, .const 0, .fmax]⟩).length ≤ chunkSize := by decide +kernel
  let files : Files := ⟨some (headerBytes 4 1 selection.config selection.constPool), fun i =>
    ([Fragment.mk [.one, .const 0, .fmax]][i]?.map Fragment.encode).or (some [1])⟩
  let dir : Directory := ⟨.ok (shortFile _ hheader), fun i =>
    if i = 0 then .ok (shortFile _ hfragment) else .ok (shortFile [1] (by decide))⟩
  have hserialize : serializeToDir selection ⟨none, fun _ => some [1]⟩ = .ok files := rfl
  have hshows : dir.Shows files := by
    refine ⟨fun bytes hbytes => ?_, fun i bytes hbytes => ?_⟩
    · obtain rfl := Option.some.inj hbytes
      exact holds_shortFile hheader (List.ne_nil_of_length_pos (by decide +kernel))
    · cases i with
      | zero =>
        obtain rfl := Option.some.inj hbytes
        exact holds_shortFile hfragment (List.ne_nil_of_length_pos (by decide +kernel))
      | succ i =>
        obtain rfl := Option.some.inj hbytes
        exact holds_shortFile (by decide) (by decide)
  refine ⟨files, dir, hserialize, directory_codec.1 selection _ files dir .default _ hserialize hshows ?_ fun _ _ => rfl, hshows⟩
  exact ⟨by decide +kernel, by decide, by decide, by decide⟩

end GraphDirectory
end BmlSys
