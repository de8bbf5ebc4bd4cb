import BmlSys.Gguf.ReaderSpec
import BmlSys.Weights.GgufPreflight

/-!
# The preflight and the reader walk the same records

Where the reader has decoded a record from `start` to `stop`, the scanner that stands at `start` moves to `stop`, with one leaf
for each scalar and one element for each value of an array, unless it reports a limit. Loops follow by the round.
-/

namespace BmlSys
open Except BytePack OffsetReader
open Gguf

/-! ### What the counters count -/

namespace Gguf

def GgufMetadataValue.scalars : GgufMetadataValue → List GgufScalar
  | .scalar v => [v]
  | .array _ values => values

def GgufMetadataValue.arrayElements : GgufMetadataValue → Nat
  | .scalar _ => 0
  | .array _ values => values.length

def leaves (metadata : List (String × GgufMetadataValue)) : Nat := (metadata.map fun entry => entry.2.scalars.length).sum

def arrayElements (metadata : List (String × GgufMetadataValue)) : Nat := (metadata.map fun entry => entry.2.arrayElements).sum

def GgufTensorInfo.elements (info : GgufTensorInfo) : Nat := (info.dims.map UInt64.toNat).prod

def totalElements (infos : List GgufTensorInfo) : Nat := (infos.map GgufTensorInfo.elements).sum

end Gguf

namespace Weights
namespace Scan

/-- The scanner after a move. -/
def moved (s : Scan) (offset : Nat) : Scan := { s with position := offset, consumed := offset }

/-- Standing at `offset`, past the header. -/
structure At (s : Scan) (offset : Nat) : Prop where
  position : s.position = offset
  consumed : s.consumed = offset
  header : 24 ≤ offset

theorem At.move {s : Scan} {start stop : Nat} (h : s.At start) (hle : start ≤ stop) : (s.moved stop).At stop :=
  ⟨rfl, rfl, h.header.trans hle⟩

theorem At.moved_self {s : Scan} {offset : Nat} (h : s.At offset) : s.moved offset = s := by
  obtain ⟨position, consumed, leaves, arrays⟩ := s
  obtain ⟨rfl, hconsumed, -⟩ := h
  obtain rfl : consumed = position := hconsumed
  rfl

/-- What `leaf` does on a scalar of a fixed width. -/
theorem leaf_of_width {file : List UInt8} {limits : ReadLimits} {s : Scan} {typeId : UInt32} {n : Nat}
    (h : scalarWidth typeId.toNat = some n) (hleaves : s.leaves + 1 < 2 ^ 64) :
    s.leaf file limits typeId = ({ s with leaves := s.leaves + 1 } : Scan).skip file n := by
  rw [leaf, checkedAdd, if_pos hleaves]
  unfold scalarWidth at h
  generalize typeId.toNat = k at h
  split at h <;> cases h <;> rfl

theorem leaf_of_text {file : List UInt8} {limits : ReadLimits} {s : Scan} {typeId : UInt32}
    (h : typeId.toNat = 8) (hleaves : s.leaves + 1 < 2 ^ 64) :
    s.leaf file limits typeId = ({ s with leaves := s.leaves + 1 } : Scan).string file limits false := by
  rw [leaf, checkedAdd, if_pos hleaves, h]
  rfl

/-- From `s`, `l` leaves and `a` elements later, at `stop`. -/
structure Advanced (s s' : Scan) (stop l a : Nat) : Prop extends s'.At stop where
  leaves : s'.leaves = s.leaves + l
  arrays : s'.arrays = s.arrays + a

section
variable {file : List UInt8} (hlen : file.length ≤ isizeMax) {limits : ReadLimits} {s : Scan} {start stop : Nat}
include hlen

theorem read_of_range {n : Nat} {w : List UInt8} (hposition : s.position = start) (hconsumed : s.consumed = start)
    (h : file.getRange? start (start + n) = some w) : s.read file n = .ok (w, s.moved (start + n)) := by
  obtain ⟨-, hstop, hw⟩ := List.getRange?_eq_some.1 h
  have hadd : checkedAdd s.consumed n = some (start + n) := by
    rw [hconsumed, checkedAdd, if_pos (by unfold isizeMax at hlen; omega)]
  rw [read, failIf, hposition, if_neg (by omega), ok_bind', hadd]
  show Except.ok _ = _
  rw [← hw, List.drop_take, Nat.add_sub_cancel_left]
  rfl

theorem u32_of_range {w : List UInt8} (hs : s.At start) (h : file.getRange? start (start + 4) = some w) :
    s.u32 file = .ok (.ofNat (fromLe w), s.moved (start + 4)) := by
  rw [u32, read_of_range hlen hs.position hs.consumed h]
  rfl

theorem u64_of_range {w : List UInt8} (hs : s.At start) (h : file.getRange? start (start + 8) = some w) :
    s.u64 file = .ok (fromLe w, s.moved (start + 8)) := by
  rw [u64, read_of_range hlen hs.position hs.consumed h]
  rfl

theorem skip_of_le {n : Nat} (hs : s.At start) (h : start + n ≤ file.length) : s.skip file n = .ok (s.moved (start + n)) := by
  have hadd : checkedAdd s.consumed n = some (start + n) := by
    rw [hs.consumed, checkedAdd, if_pos (by unfold isizeMax at hlen; omega)]
  rw [skip, hadd]
  show (failIf _ _ >>= _) = _
  rw [failIf, if_neg (by omega)]
  rfl

/-- A name or a text; a name is not empty. -/
theorem sat_string (name : Bool) {text : String} {E : Fault Error → Prop} (hs : s.At start)
    (h : decodeString file start = .ok (text, stop)) (hE : ∀ e, IsLimit e → E e)
    (hname : name = true → text.utf8ByteSize = 0 → E (.error (.metadata none .invalidValue))) :
    Sat (s.string file limits name) (fun s' => s' = s.moved stop ∧ start + 8 ≤ stop ∧
      text.utf8ByteSize ≤ (if name then limits.maxNameBytes else limits.maxStringBytes).toNat ∧
      (name = true → text.utf8ByteSize ≠ 0)) E := by
  obtain ⟨w, hw, hsize, rfl, hstop⟩ := decodeString_eq_ok h
  have hmid : (s.moved (start + 8)).At (start + 8) := hs.move (Nat.le_add_right _ _)
  rw [string, u64_of_range hlen hs hw, ok_bind']
  rw [hsize]
  refine Sat.bind (Q := fun _ => text.utf8ByteSize ≤ (if name then limits.maxNameBytes else limits.maxStringBytes).toNat) ?_
    fun _ hcap => ?_
  · cases name
    · exact (sat_checkLimit _ _ _).mono (fun _ h => h) hE
    · exact (sat_checkLimit _ _ _).mono (fun _ h => h) hE
  refine (Sat.failIf fun hempty => hname hempty.1 hempty.2).bind fun _ hne => ?_
  rw [skip_of_le hlen hmid hstop]
  exact ⟨rfl, Nat.le_add_right _ _, hcap, fun hn hzero => hne ⟨hn, hzero⟩⟩

theorem sat_leaf {typeId : UInt32} {v : GgufScalar} (hs : s.At start) (hleaves : s.leaves ≤ start)
    (h : decodeScalar file typeId start = .ok (v, stop)) :
    Sat (s.leaf file limits typeId) (fun s' => s.Advanced s' stop 1 0 ∧ start + 1 ≤ stop ∧
      v.textBytes ≤ limits.maxStringBytes.toNat) IsLimit := by
  have hs' : At { s with leaves := s.leaves + 1 } start := ⟨hs.position, hs.consumed, hs.header⟩
  rcases decodeScalar_eq_ok h with ⟨htype, text, rfl, htext⟩ | ⟨n, hn, hpos, rfl, hstop, hv⟩
  · obtain ⟨-, -, -, hstop, hle⟩ := decodeString_eq_ok htext
    rw [leaf_of_text htype (by unfold isizeMax at hlen; omega)]
    refine (sat_string hlen false hs' htext (fun _ he => he) (fun h => nomatch h)).mono (fun s' h => ?_) fun _ he => he
    obtain ⟨rfl, hle', hcap, -⟩ := h
    exact ⟨⟨hs'.move (by omega), rfl, rfl⟩, by omega, hcap⟩
  · rw [leaf_of_width hn (by unfold isizeMax at hlen; omega), skip_of_le hlen hs' hstop]
    exact ⟨⟨hs'.move (by omega), rfl, rfl⟩, by omega, hv ▸ Nat.zero_le _⟩

omit hlen in
theorem sat_metadataBytes (hs : s.At start) :
    Sat (s.metadataBytes limits) (fun _ => start - 24 ≤ limits.maxMetadataBytes.toNat) IsLimit := by
  have hsub : (sub s.consumed 24 : Result Nat) = .ok (start - 24) := by
    rw [hs.consumed]
    exact if_pos hs.header
  rw [metadataBytes, hsub]
  exact sat_checkLimit _ _ _

omit limits s stop in
/-- Each value of an array takes a byte at least. -/
theorem runs_elements (hstart : start ≤ file.length) (kind : UInt32) (n : Nat) :
    Runs file (loop (decodeElement file kind) n []) start fun values stop => values.length = n ∧ start + n ≤ stop := by
  refine Runs.loop (I := fun i (values : List GgufScalar) mid => values.length = i ∧ start + i ≤ mid)
    (fun i _ values mid _ hmid h => ?_) hstart ⟨rfl, le_rfl⟩
  obtain ⟨hcount, hle⟩ := h
  refine (runs_decodeScalar hlen hmid kind).bind fun x _ _ hstop hx => Runs.pure hstop ⟨?_, by omega⟩
  rw [List.length_append, hcount]
  rfl

theorem sat_elements {kind : UInt32} {n : Nat} {values : List GgufScalar} (hs : s.At start) (hleaves : s.leaves ≤ start)
    (h : loop (decodeElement file kind) n [] start = .ok (values, stop)) :
    Sat (times (fun s => s.element file limits kind) n s) (fun s' => s.Advanced s' stop n 0 ∧
      ∀ x ∈ values, x.textBytes ≤ limits.maxStringBytes.toNat) IsLimit := by
  refine (Sat.times_of_ok (R := fun i (p : List GgufScalar × Nat) s' => s.Advanced s' p.2 i 0 ∧ start + i ≤ p.2 ∧
    ∀ x ∈ p.1, x.textBytes ≤ limits.maxStringBytes.toNat) (fun i _ p p' s' hR hstep _ => ?_)
    ⟨⟨hs, rfl, rfl⟩, le_rfl, fun _ h => absurd h List.not_mem_nil⟩ h).mono (fun s' h => ⟨h.1, h.2.2⟩) fun _ he => he
  obtain ⟨hadv, hle, htext⟩ := hR
  obtain ⟨values', o'⟩ := p'
  obtain ⟨x, mid, hx, hpure⟩ := OffsetReader.bind_eq_ok.1 hstep
  cases hpure
  refine (sat_leaf hlen hadv.toAt (by rw [hadv.leaves]; omega) hx).bind fun s'' h => ?_
  obtain ⟨hadv', hle', hx'⟩ := h
  refine (sat_metadataBytes hadv'.toAt).bind fun _ _ => ⟨⟨hadv'.toAt, ?_, ?_⟩, by show start + (i + 1) ≤ _; omega, ?_⟩
  · rw [hadv'.leaves, hadv.leaves, Nat.add_assoc]
  · rw [hadv'.arrays, hadv.arrays]
  · exact fun y hy => (List.mem_append.1 hy).elim (htext y) fun hy => List.mem_singleton.1 hy ▸ hx'

theorem sat_value {typeId : UInt32} {v : GgufMetadataValue} (hs : s.At start) (hleaves : s.leaves ≤ start)
    (harrays : s.arrays ≤ start) (hcap : s.arrays ≤ limits.maxMetadataArrayElements.toNat)
    (h : decodeMetadataValue file typeId start = .ok (v, stop)) :
    Sat (s.value file limits typeId) (fun s' => s.Advanced s' stop v.scalars.length v.arrayElements ∧
      start + v.scalars.length ≤ stop ∧ start + v.arrayElements ≤ stop ∧ s'.arrays ≤ limits.maxMetadataArrayElements.toNat ∧
      ∀ x ∈ v.scalars, x.textBytes ≤ limits.maxStringBytes.toNat) IsLimit := by
  unfold decodeMetadataValue at h
  unfold value
  split at h
  · rename_i htype
    obtain ⟨header, mid, hheader, h⟩ := OffsetReader.bind_eq_ok.1 h
    obtain ⟨rfl, hrange⟩ := field_eq_ok hheader
    obtain ⟨_, _, hcheck, h⟩ := OffsetReader.bind_eq_ok.1 h
    obtain ⟨hnested, rfl⟩ := check_eq_ok hcheck
    obtain ⟨values, stop', hloop, h⟩ := OffsetReader.bind_eq_ok.1 h
    obtain ⟨dt, _, hdt, hpure⟩ := OffsetReader.bind_eq_ok.1 h
    obtain ⟨-, rfl⟩ := orFail_eq_ok hdt
    cases hpure
    -- The twelve bytes of the header are the scanner's two fields.
    obtain ⟨hkind, hcount⟩ := List.getRange?_split hrange (Nat.le_add_right start 4) (by omega)
    rw [Nat.add_sub_cancel_left] at hkind hcount
    have hwords : (u64Of (header.drop 4)).toNat = fromLe (header.drop 4) := by
      have hlt := fromLe_lt (header.drop 4)
      rw [List.length_getRange? hcount, show start + 12 - (start + 4) = 8 by omega] at hlt
      exact UInt64.toNat_ofNat_of_lt' hlt
    have hs' : (s.moved (start + 4)).At (start + 4) := hs.move (Nat.le_add_right _ _)
    rw [if_pos htype, u32_of_range hlen hs hkind, ok_bind']
    show Sat ((s.moved (start + 4)).u64 file >>= _) _ _
    rw [u64_of_range hlen hs' hcount, ok_bind']
    rw [hwords] at hloop
    obtain ⟨-, hstop, hlength, hprogress⟩ := (runs_elements hlen (List.getRange?_eq_some.1 hrange).2.1 _ _).ok hloop
    replace hlength : values.length = fromLe (header.drop 4) := hlength
    replace hprogress : start + 12 + fromLe (header.drop 4) ≤ stop := hprogress
    refine (Sat.failIf fun hkind => absurd hkind hnested).bind fun _ _ => ?_
    have hadd : checkedAdd ((s.moved (start + 4)).moved (start + 12)).arrays (fromLe (header.drop 4)) =
        some (s.arrays + fromLe (header.drop 4)) := by
      rw [checkedAdd, if_pos]
      · rfl
      · show s.arrays + _ < _
        unfold isizeMax at hlen
        omega
    have hat : At { (s.moved (start + 4)).moved (start + 12) with arrays := s.arrays + fromLe (header.drop 4) } (start + 12) :=
      ⟨rfl, rfl, hs.header.trans (Nat.le_add_right _ _)⟩
    rw [hadd]
    refine (sat_checkLimit _ _ _).bind fun _ htotal => ?_
    refine (sat_elements hlen hat (hleaves.trans (Nat.le_add_right _ _)) hloop).mono (fun s' h => ?_) fun _ he => he
    obtain ⟨hadv, htext⟩ := h
    refine ⟨⟨hadv.toAt, ?_, ?_⟩, ?_, ?_, ?_, htext⟩
    · rw [hadv.leaves]
      exact congrArg _ hlength.symm
    · rw [hadv.arrays]
      exact congrArg _ hlength.symm
    · show start + values.length ≤ _
      omega
    · show start + values.length ≤ _
      omega
    · rw [hadv.arrays]
      exact htotal
  · rename_i htype
    obtain ⟨x, mid, hx, h⟩ := OffsetReader.bind_eq_ok.1 h
    cases h
    rw [if_neg htype]
    refine (sat_leaf hlen hs hleaves hx).mono (fun s' h => ?_) fun _ he => he
    obtain ⟨hadv, hle, htext⟩ := h
    exact ⟨hadv, hle, by show start + 0 ≤ stop; omega, by rw [hadv.arrays]; exact hcap, fun _ hx => List.mem_singleton.1 hx ▸ htext⟩

/-! ### Records -/

/-- A metadata entry with a name, within the limits of names and texts. -/
structure EntryWithin (limits : ReadLimits) (entry : String × GgufMetadataValue) : Prop where
  name : entry.1.utf8ByteSize ≤ limits.maxNameBytes.toNat
  named : entry.1.utf8ByteSize ≠ 0
  texts : ∀ x ∈ entry.2.scalars, x.textBytes ≤ limits.maxStringBytes.toNat

theorem sat_entry {entry : String × GgufMetadataValue} {E : Fault Error → Prop} (hs : s.At start) (hleaves : s.leaves ≤ start)
    (harrays : s.arrays ≤ start) (hcap : s.arrays ≤ limits.maxMetadataArrayElements.toNat)
    (h : decodeMetadataKv file start = .ok (entry, stop)) (hE : ∀ e, IsLimit e → E e)
    (hname : entry.1.utf8ByteSize = 0 → E (.error (.metadata none .invalidValue))) :
    Sat (s.entry file limits) (fun s' => s.Advanced s' stop entry.2.scalars.length entry.2.arrayElements ∧
      s'.leaves ≤ stop ∧ s'.arrays ≤ stop ∧ s'.arrays ≤ limits.maxMetadataArrayElements.toNat ∧ EntryWithin limits entry ∧
      stop - 24 ≤ limits.maxMetadataBytes.toNat) E := by
  obtain ⟨key, v⟩ := entry
  obtain ⟨mid, w, hkey, hw, hv⟩ := decodeMetadataKv_eq_ok h
  refine (sat_string hlen true hs hkey hE fun _ => hname).bind fun s' h => ?_
  obtain ⟨rfl, hle, hnameCap, hne⟩ := h
  have hmid : (s.moved mid).At mid := hs.move (by omega)
  rw [u32_of_range hlen hmid hw, ok_bind']
  have hat : ((s.moved mid).moved (mid + 4)).At (mid + 4) := hmid.move (Nat.le_add_right _ _)
  refine (Sat.mono (sat_value hlen hat (hleaves.trans (by omega)) (harrays.trans (by omega)) hcap hv) (fun _ h => h) hE).bind
    fun s'' h => ?_
  obtain ⟨hadv, hleaves', harrays', hcap', htexts⟩ := h
  refine (Sat.mono (sat_metadataBytes hadv.toAt) (fun _ h => h) hE).bind fun _ hbytes => ?_
  refine ⟨⟨hadv.toAt, hadv.leaves, hadv.arrays⟩, ?_, ?_, hcap', ⟨hnameCap, hne rfl, htexts⟩, hbytes⟩
  · rw [hadv.leaves]
    show s.leaves + _ ≤ _
    omega
  · rw [hadv.arrays]
    show s.arrays + _ ≤ _
    omega

/-- The dimensions of a descriptor, with the products of the first ones. -/
theorem dimensions_of_loop {n : Nat} {dims : List UInt64} (hs : s.At start) (h : loop (decodeDim file) n [] start = .ok (dims, stop))
    (hnonzero : ∀ d ∈ dims, d ≠ 0) (hfits : (dims.map UInt64.toNat).prod < 2 ^ 64) :
    stop = start + 8 * n ∧ times (dimension file) n (1, s) = .ok ((dims.map UInt64.toNat).prod, s.moved stop) := by
  have hrun : Sat (times (dimension file) n (1, s)) (fun q => stop = start + 8 * n ∧ q = ((dims.map UInt64.toNat).prod, s.moved stop))
      fun _ => False := by
    refine Sat.times_of_ok (R := fun i (p : List UInt64 × Nat) (q : Nat × Scan) => p.2 = start + 8 * i ∧
      q = ((p.1.map UInt64.toNat).prod, s.moved p.2)) (fun i _ p p' q hR hstep hrest => ?_) ⟨rfl, ?_⟩ h
    · obtain ⟨ds, o⟩ := p
      obtain ⟨ds', o'⟩ := p'
      obtain ⟨rfl, rfl⟩ := hR
      obtain ⟨w, hw, rfl, rfl⟩ := decodeDim_eq_ok hstep
      have hword : (UInt64.ofNat (fromLe w)).toNat = fromLe w := by
        have hlt := fromLe_lt w
        rw [List.length_getRange? hw, Nat.add_sub_cancel_left] at hlt
        exact UInt64.toNat_ofNat_of_lt' hlt
      -- Nonzero dimensions: the product of the first ones is at most that of all.
      obtain ⟨⟨later, hlater⟩, -⟩ := @loop_concat _ _ (decodeDim file) _ _ _ _ _ (fun _ _ _ _ hl => decodeDim_concat hl) hrest
      have hprod : ((ds.map UInt64.toNat).prod * fromLe w) * (later.map UInt64.toNat).prod = (dims.map UInt64.toNat).prod := by
        rw [← hlater]
        simp [hword, Nat.mul_assoc]
      have hpos : ∀ d ∈ dims, 0 < d.toNat := fun d hd => Nat.pos_of_ne_zero fun h => hnonzero d hd (UInt64.toNat_inj.1 h)
      have hlaterPos : 0 < (later.map UInt64.toNat).prod := List.prod_pos fun d hd => by
        obtain ⟨d', hd', rfl⟩ := List.mem_map.1 hd
        exact hpos d' (hlater ▸ List.mem_append_right _ hd')
      have hne : fromLe w ≠ 0 := by
        rw [← hword]
        exact (hpos (.ofNat (fromLe w)) (hlater ▸ by simp)).ne'
      have hlt : (ds.map UInt64.toNat).prod * fromLe w < 2 ^ 64 :=
        lt_of_le_of_lt (hprod ▸ Nat.le_mul_of_pos_right _ hlaterPos) hfits
      have hat : (s.moved (start + 8 * i)).At (start + 8 * i) := hs.move (Nat.le_add_right _ _)
      show Sat ((s.moved (start + 8 * i)).u64 file >>= _) _ _
      rw [u64_of_range hlen hat hw, ok_bind']
      show Sat (failIf (fromLe w = 0) overflow >>= _) _ _
      rw [failIf, if_neg hne, ok_bind', checkedMul, if_pos hlt]
      refine ⟨by show start + 8 * i + 8 = _; omega, ?_⟩
      show (_, _) = (_, _)
      rw [List.map_append, List.prod_append, List.map_singleton, List.prod_singleton, hword]
      rfl
    · rw [hs.moved_self]
      rfl
  obtain ⟨q, hq, hstop, rfl⟩ := hrun.exists_ok
  exact ⟨hstop, hq⟩

/-- A descriptor with a name within its limit. -/
structure InfoWithin (limits : ReadLimits) (info : GgufTensorInfo) : Prop where
  name : info.name.utf8ByteSize ≤ limits.maxNameBytes.toNat
  named : info.name.utf8ByteSize ≠ 0

/-- Past a name of a descriptor that starts at `offset`, and its rank. -/
def dimsStart (offset : Nat) (info : GgufTensorInfo) : Nat := offset + 8 + info.name.utf8ByteSize + 4

theorem sat_tensor {info : GgufTensorInfo} {E : Fault Error → Prop} {tensorStart total : Nat} (hs : s.At start)
    (hstart : start ≤ file.length) (hbegin : tensorStart ≤ start) (h : decodeTensorInfo file start = .ok (info, stop))
    (hE : ∀ e, IsLimit e → E e) (hname : info.name.utf8ByteSize = 0 → E (.error (.metadata none .invalidValue)))
    (htotal : 2 ^ 64 ≤ total + info.elements → E overflow) :
    Sat (tensor file limits tensorStart (total, s)) (fun q => q.1 = total + info.elements ∧ s.Advanced q.2 stop 0 0 ∧
      tensorStart ≤ stop ∧ stop ≤ file.length ∧ InfoWithin limits info ∧ q.1 ≤ limits.maxTotalTerms.toNat ∧
      stop - tensorStart ≤ limits.maxIndexBytes.toNat) E := by
  have hvalid : info.Valid := ((runs_decodeTensorInfo hlen hstart).ok h).2.2.2
  obtain ⟨mid, w, dimsEnd, hkey, hw, hrank, hrank', hdims, rfl, hstop⟩ := decodeTensorInfo_eq_ok h
  have hword : (UInt32.ofNat (fromLe w)).toNat = fromLe w := UInt32.toNat_ofNat_of_lt' (show fromLe w < 2 ^ 32 by omega)
  refine (sat_string hlen true hs hkey hE fun _ => hname).bind fun s' h => ?_
  obtain ⟨rfl, hle, hnameCap, hne⟩ := h
  have hmid : (s.moved mid).At mid := hs.move (by omega)
  rw [u32_of_range hlen hmid hw, ok_bind']
  have hat : ((s.moved mid).moved (mid + 4)).At (mid + 4) := hmid.move (Nat.le_add_right _ _)
  have hsub : (sub ((s.moved mid).moved (mid + 4)).consumed 4 : Result Nat) = .ok mid := by
    show (if 4 ≤ mid + 4 then Except.ok (mid + 4 - 4) else _) = _
    rw [if_pos (Nat.le_add_left _ _), Nat.add_sub_cancel]
  have hin : ¬ ¬ (1 ≤ UInt32.ofNat (fromLe w) ∧ UInt32.ofNat (fromLe w) ≤ 4) := by
    rw [not_not, UInt32.le_iff_toNat_le, UInt32.le_iff_toNat_le, hword]
    exact ⟨hrank, hrank'⟩
  obtain ⟨rfl, htimes⟩ := dimensions_of_loop hlen hat hdims hvalid.nonzero hvalid.fits
  show Sat (sub ((s.moved mid).moved (mid + 4)).consumed 4 >>= _) _ _
  rw [hsub, ok_bind', failIf, if_neg hin, ok_bind', hword, htimes, ok_bind']
  refine Sat.bind (Q := fun t => t = total + info.elements) ?_ fun t ht => ?_
  · rw [checkedAdd]
    split
    · exact rfl
    · rename_i hge
      exact htotal (Nat.not_lt.1 hge)
  · subst ht
    refine (Sat.mono (sat_checkLimit _ _ _) (fun _ h => h) hE).bind fun _ hcap => ?_
    have hlast : (((s.moved mid).moved (mid + 4)).moved (mid + 4 + 8 * fromLe w)).At (mid + 4 + 8 * fromLe w) :=
      hat.move (Nat.le_add_right _ _)
    rw [skip_of_le hlen hlast hstop, ok_bind']
    have hsub' : (sub (mid + 4 + 8 * fromLe w + 12) tensorStart : Result Nat) =
        .ok (mid + 4 + 8 * fromLe w + 12 - tensorStart) := if_pos (by omega)
    show Sat (sub (mid + 4 + 8 * fromLe w + 12) tensorStart >>= _) _ _
    rw [hsub', ok_bind']
    refine (Sat.mono (sat_checkLimit _ _ _) (fun _ h => h) hE).bind fun _ hindex => ?_
    exact ⟨rfl, ⟨hlast.move (Nat.le_add_right _ _), rfl, rfl⟩, by omega, hstop, ⟨hnameCap, hne rfl⟩, hcap, hindex⟩

/-! ### Loops -/

/-- Past the file's header. -/
def afterHeader : Scan := { position := 24, consumed := 24 }

/-- The scanner after the entries `metadata`. -/
structure EntriesRead (limits : ReadLimits) (metadata : List (String × GgufMetadataValue)) (offset : Nat) (s : Scan) : Prop
    extends s.At offset where
  leaves : s.leaves = Gguf.leaves metadata
  arrays : s.arrays = Gguf.arrayElements metadata
  leaves_le : s.leaves ≤ offset
  arrays_le : s.arrays ≤ offset
  elements : s.arrays ≤ limits.maxMetadataArrayElements.toNat
  within : ∀ entry ∈ metadata, EntryWithin limits entry
  bytes : offset - 24 ≤ limits.maxMetadataBytes.toNat

/-- The scanner after the descriptors `infos`, from `before` on, with the total of their elements. -/
structure TensorsRead (file : List UInt8) (limits : ReadLimits) (tensorStart : Nat) (before : Scan) (infos : List GgufTensorInfo)
    (offset : Nat) (q : Nat × Scan) : Prop extends before.Advanced q.2 offset 0 0 where
  total : q.1 = totalElements infos
  start_le : tensorStart ≤ offset
  inside : offset ≤ file.length
  within : ∀ info ∈ infos, InfoWithin limits info
  terms : q.1 ≤ limits.maxTotalTerms.toNat
  index : offset - tensorStart ≤ limits.maxIndexBytes.toNat

omit hlen in
theorem openMetadata_concat {metadata metadata' : List (String × GgufMetadataValue)}
    (h : GgufReader.openMetadata file metadata start = .ok (metadata', stop)) : ∃ entry, metadata' = metadata ++ [entry] :=
  have ⟨entry, _, h⟩ := GgufReader.openMetadata_eq_ok h
  ⟨entry, h⟩

omit hlen in
theorem openTensor_concat {infos infos' : List GgufTensorInfo} (h : GgufReader.openTensor file infos start = .ok (infos', stop)) :
    ∃ info, infos' = infos ++ [info] :=
  have ⟨info, _, h⟩ := GgufReader.openTensor_eq_ok h
  ⟨info, h⟩

theorem sat_entries {n : Nat} {metadata : List (String × GgufMetadataValue)} {E : Fault Error → Prop}
    (h : loop (GgufReader.openMetadata file) n [] 24 = .ok (metadata, stop)) (hE : ∀ e, IsLimit e → E e)
    (hname : ∀ entry ∈ metadata, entry.1.utf8ByteSize = 0 → E (.error (.metadata none .invalidValue))) :
    Sat (times (entry file limits) n afterHeader) (EntriesRead limits metadata stop) E := by
  refine Sat.times_of_ok (R := fun _ (p : List (String × GgufMetadataValue) × Nat) s => EntriesRead limits p.1 p.2 s)
    (fun i _ p p' s hR hstep hrest => ?_)
    ⟨⟨rfl, rfl, le_rfl⟩, rfl, rfl, Nat.zero_le _, Nat.zero_le _, Nat.zero_le _, fun _ h => absurd h List.not_mem_nil, by simp⟩ h
  obtain ⟨read, o⟩ := p
  obtain ⟨read', o'⟩ := p'
  obtain ⟨entry, hentry, rfl⟩ := GgufReader.openMetadata_eq_ok hstep
  obtain ⟨⟨later, hlater⟩, -⟩ :=
    @loop_concat _ _ (GgufReader.openMetadata file) _ _ _ _ _ (fun _ _ _ _ hl => openMetadata_concat hl) hrest
  have hmem : entry ∈ metadata := by
    rw [← hlater]
    simp
  refine (sat_entry hlen hR.toAt hR.leaves_le hR.arrays_le hR.elements hentry hE (hname entry hmem)).mono (fun s' h => ?_)
    fun _ he => he
  obtain ⟨hadv, hleaves, harrays, hcap, hentry, hbytes⟩ := h
  refine ⟨hadv.toAt, ?_, ?_, hleaves, harrays, hcap, fun e he => ?_, hbytes⟩
  · rw [hadv.leaves, hR.leaves]
    simp [Gguf.leaves]
  · rw [hadv.arrays, hR.arrays]
    simp [Gguf.arrayElements]
  · exact (List.mem_append.1 he).elim (hR.within e) fun he => List.mem_singleton.1 he ▸ hentry

theorem sat_tensors {n tensorStart : Nat} {infos : List GgufTensorInfo} {E : Fault Error → Prop} (hs : s.At tensorStart)
    (hinside : tensorStart ≤ file.length) (h : loop (GgufReader.openTensor file) n [] tensorStart = .ok (infos, stop))
    (hE : ∀ e, IsLimit e → E e) (hname : ∀ info ∈ infos, info.name.utf8ByteSize = 0 → E (.error (.metadata none .invalidValue)))
    (htotal : 2 ^ 64 ≤ totalElements infos → E overflow) :
    Sat (times (tensor file limits tensorStart) n (0, s)) (TensorsRead file limits tensorStart s infos stop) E := by
  refine Sat.times_of_ok (R := fun _ (p : List GgufTensorInfo × Nat) q => TensorsRead file limits tensorStart s p.1 p.2 q)
    (fun i _ p p' q hR hstep hrest => ?_)
    ⟨⟨hs, rfl, rfl⟩, rfl, le_rfl, hinside, fun _ h => absurd h List.not_mem_nil, Nat.zero_le _, by simp⟩ h
  obtain ⟨read, o⟩ := p
  obtain ⟨read', o'⟩ := p'
  obtain ⟨total, s'⟩ := q
  obtain ⟨info, hinfo, rfl⟩ := GgufReader.openTensor_eq_ok hstep
  obtain ⟨⟨later, hlater⟩, -⟩ :=
    @loop_concat _ _ (GgufReader.openTensor file) _ _ _ _ _ (fun _ _ _ _ hl => openTensor_concat hl) hrest
  have hmem : info ∈ infos := by
    rw [← hlater]
    simp
  have hpartial : total + info.elements ≤ totalElements infos := by
    have htotal' : total = totalElements read := hR.total
    rw [htotal', ← hlater]
    simp only [totalElements, List.map_append, List.sum_append, List.map_singleton, List.sum_singleton]
    exact Nat.le_add_right _ _
  refine (sat_tensor hlen hR.toAt hR.inside hR.start_le hinfo hE (hname info hmem) fun h => htotal (h.trans hpartial)).mono
    (fun q h => ?_) fun _ he => he
  obtain ⟨hsum, hadv, hle, hstop, hwithin, hterms, hindex⟩ := h
  refine ⟨⟨hadv.toAt, ?_, ?_⟩, ?_, hle, hstop, fun e he => ?_, hterms, hindex⟩
  · rw [hadv.leaves, hR.leaves]
  · rw [hadv.arrays, hR.arrays]
  · rw [hsum]
    have htotal' : total = totalElements read := hR.total
    simp [htotal', totalElements]
  · exact (List.mem_append.1 he).elim (hR.within e) fun he => List.mem_singleton.1 he ▸ hwithin

/-! ### Every round -/

/-- The reader's walk and the scanner's, round by round: over the metadata, over the descriptors that start at `mid`, and over
the dimensions of each. -/
structure InStep (file : List UInt8) (limits : ReadLimits) (metadata : List (String × GgufMetadataValue))
    (infos : List GgufTensorInfo) (mid : Nat) : Prop where
  entries : ∀ i ≤ metadata.length, ∃ offset s, loop (GgufReader.openMetadata file) i [] 24 = .ok (metadata.take i, offset) ∧
    times (entry file limits) i afterHeader = .ok s ∧ EntriesRead limits (metadata.take i) offset s
  tensors : ∃ s, times (entry file limits) metadata.length afterHeader = .ok s ∧ ∀ i ≤ infos.length, ∃ offset q,
    loop (GgufReader.openTensor file) i [] mid = .ok (infos.take i, offset) ∧
    times (tensor file limits mid) i (0, s) = .ok q ∧ TensorsRead file limits mid s (infos.take i) offset q ∧
    ∀ (h : i < infos.length) j, j ≤ infos[i].dims.length →
      loop (decodeDim file) j [] (dimsStart offset infos[i]) =
        .ok (infos[i].dims.take j, dimsStart offset infos[i] + 8 * j) ∧
      times (dimension file) j (1, q.2.moved (dimsStart offset infos[i])) =
        .ok (((infos[i].dims.take j).map UInt64.toNat).prod, q.2.moved (dimsStart offset infos[i] + 8 * j))

theorem dims_in_step {info : GgufTensorInfo} (hs : s.At start) (hstart : start ≤ file.length)
    (h : decodeTensorInfo file start = .ok (info, stop)) {j : Nat} (hj : j ≤ info.dims.length) :
    loop (decodeDim file) j [] (dimsStart start info) = .ok (info.dims.take j, dimsStart start info + 8 * j) ∧
      times (dimension file) j (1, s.moved (dimsStart start info)) =
        .ok (((info.dims.take j).map UInt64.toNat).prod, s.moved (dimsStart start info + 8 * j)) := by
  have hvalid : info.Valid := ((runs_decodeTensorInfo hlen hstart).ok h).2.2.2
  obtain ⟨mid, w, dimsEnd, hkey, -, -, -, hdims, -, -⟩ := decodeTensorInfo_eq_ok h
  obtain ⟨-, -, -, rfl, -⟩ := decodeString_eq_ok hkey
  obtain ⟨-, hcount⟩ := @loop_concat _ _ (decodeDim file) _ _ _ _ _ (fun _ _ _ _ hl => decodeDim_concat hl) hdims
  rw [List.length_nil, Nat.zero_add] at hcount
  obtain ⟨offset, hloop, -⟩ :=
    @loop_take _ _ (decodeDim file) _ _ _ _ _ (fun _ _ _ _ hl => decodeDim_concat hl) hdims (hcount ▸ hj)
  have hat : (s.moved (dimsStart start info)).At (dimsStart start info) := hs.move (by unfold dimsStart; omega)
  have hprod : ((info.dims.take j).map UInt64.toNat).prod * ((info.dims.drop j).map UInt64.toNat).prod =
      (info.dims.map UInt64.toNat).prod := by
    rw [← List.prod_append, ← List.map_append, List.take_append_drop]
  have hpos : 0 < ((info.dims.drop j).map UInt64.toNat).prod := List.prod_pos fun d hd => by
    obtain ⟨d', hd', rfl⟩ := List.mem_map.1 hd
    exact Nat.pos_of_ne_zero fun hzero => hvalid.nonzero d' (List.mem_of_mem_drop hd') (UInt64.toNat_inj.1 hzero)
  obtain ⟨rfl, htimes⟩ := dimensions_of_loop hlen hat hloop (fun d hd => hvalid.nonzero d (List.mem_of_mem_take hd))
    (lt_of_le_of_lt (hprod ▸ Nat.le_mul_of_pos_right _ hpos) hvalid.fits)
  exact ⟨hloop, htimes⟩

theorem inStep_of_ok {metadata : List (String × GgufMetadataValue)} {infos : List GgufTensorInfo} {n m mid : Nat} {q : Nat × Scan}
    (hmetadata : loop (GgufReader.openMetadata file) n [] 24 = .ok (metadata, mid))
    (hinfos : loop (GgufReader.openTensor file) m [] mid = .ok (infos, stop)) (hmid : mid ≤ file.length)
    (hentries : times (entry file limits) n afterHeader = .ok s) (htensors : times (tensor file limits mid) m (0, s) = .ok q) :
    Scan.InStep file limits metadata infos mid := by
  have hn : metadata.length = n := by
    have h := (@loop_concat _ _ (GgufReader.openMetadata file) _ _ _ _ _ (fun _ _ _ _ hl => openMetadata_concat hl) hmetadata).2
    rw [h, List.length_nil, Nat.zero_add]
  have hm : infos.length = m := by
    have h := (@loop_concat _ _ (GgufReader.openTensor file) _ _ _ _ _ (fun _ _ _ _ hl => openTensor_concat hl) hinfos).2
    rw [h, List.length_nil, Nat.zero_add]
  have hs : EntriesRead limits metadata mid s :=
    (@sat_entries file hlen limits mid n metadata (fun _ => True) hmetadata (fun _ _ => trivial) fun _ _ _ => trivial).ok hentries
  refine ⟨fun i hi => ?_, s, hn.symm ▸ hentries, fun i hi => ?_⟩
  · obtain ⟨offset, hloop, -⟩ :=
      @loop_take _ _ (GgufReader.openMetadata file) _ _ _ _ _ (fun _ _ _ _ hl => openMetadata_concat hl) hmetadata (hn ▸ hi)
    obtain ⟨s', hs', -⟩ := exists_of_times hentries (hn ▸ hi)
    refine ⟨offset, s', hloop, hs', ?_⟩
    exact (@sat_entries file hlen limits offset i _ (fun _ => True) hloop (fun _ _ => trivial) fun _ _ _ => trivial).ok hs'
  · obtain ⟨offset, hloop, hrest⟩ :=
      @loop_take _ _ (GgufReader.openTensor file) _ _ _ _ _ (fun _ _ _ _ hl => openTensor_concat hl) hinfos (hm ▸ hi)
    obtain ⟨q', hq', -⟩ := exists_of_times htensors (hm ▸ hi)
    have hread : TensorsRead file limits mid s (infos.take i) offset q' :=
      (@sat_tensors file hlen limits s offset i mid _ (fun _ => True) hs.toAt hmid hloop (fun _ _ => trivial)
        (fun _ _ _ => trivial) fun _ => trivial).ok hq'
    refine ⟨offset, q', hloop, hq', hread, fun hlt j hj => ?_⟩
    -- The next round of the reader is the descriptor at `offset`.
    obtain ⟨k, hk⟩ := Nat.exists_eq_succ_of_ne_zero (Nat.sub_ne_zero_of_lt (hm ▸ hlt))
    rw [hk] at hrest
    obtain ⟨⟨next, offset'⟩, hnext, hrest⟩ := Except.bind_eq_ok.1 hrest
    obtain ⟨info, hinfo, rfl⟩ := GgufReader.openTensor_eq_ok hnext
    obtain ⟨⟨later, hlater⟩, -⟩ :=
      @loop_concat _ _ (GgufReader.openTensor file) _ _ _ _ _ (fun _ _ _ _ hl => openTensor_concat hl) hrest
    obtain rfl : info = infos[i] := by
      have hget : infos[i]? = some info := by
        rw [← hlater, List.append_assoc, List.getElem?_append_right (by simp), List.length_take_of_le hlt.le, Nat.sub_self]
        rfl
      rw [List.getElem?_eq_getElem hlt] at hget
      exact (Option.some.inj hget).symm
    exact dims_in_step hlen hread.toAt hread.inside hinfo hj

end
end Scan

/-! ### The whole pass -/

section
open Scan Gguf.GgufReader
variable {mmap : MmapFile} {r : GgufReader} {options : WriteOptions} {mid stop : Nat}

/-- What a reader holds is within the limits; `mid` and `stop` end its metadata and its descriptors. -/
structure ReaderWithin (limits : ReadLimits) (r : GgufReader) (mid stop : Nat) : Prop where
  entryCount : r.metadata.length ≤ limits.maxMetadataEntries.toNat
  arrayElements : Gguf.arrayElements r.metadata ≤ limits.maxMetadataArrayElements.toNat
  entries : ∀ entry ∈ r.metadata, EntryWithin limits entry
  metadataBytes : mid - 24 ≤ limits.maxMetadataBytes.toNat
  tensorCount : r.tensorInfos.length ≤ limits.maxTensors.toNat
  infos : ∀ info ∈ r.tensorInfos, InfoWithin limits info
  totalTerms : totalElements r.tensorInfos ≤ limits.maxTotalTerms.toNat
  indexBytes : stop - mid ≤ limits.maxIndexBytes.toNat

/-- The four fields of the header. -/
theorem header_read (hopen : openFile mmap = .ok r) :
    ({} : Scan).read mmap.bytes 4 = .ok ([71, 71, 85, 70], { position := 4, consumed := 4 }) ∧
    ({ position := 4, consumed := 4 } : Scan).u32 mmap.bytes = .ok (r.header.version, { position := 8, consumed := 8 }) ∧
    ({ position := 8, consumed := 8 } : Scan).u64 mmap.bytes =
      .ok (r.header.tensorCount.toNat, { position := 16, consumed := 16 }) ∧
    ({ position := 16, consumed := 16 } : Scan).u64 mmap.bytes = .ok (r.header.metadataKvCount.toNat, afterHeader) := by
  obtain ⟨-, hheader, hmagic, -⟩ := openFile_eq_ok hopen
  obtain ⟨w₀, w₁, w₂, w₃, h₀, h₁, h₂, h₃, heq⟩ := decodeHeader_eq_ok hheader
  have hword {w : List UInt8} {a b : Nat} (h : mmap.bytes.getRange? a b = some w) (hab : b = a + 8) :
      fromLe w = (u64Of w).toNat := by
    have hlt := fromLe_lt w
    rw [List.length_getRange? h, hab, Nat.add_sub_cancel_left] at hlt
    exact (UInt64.toNat_ofNat_of_lt' hlt).symm
  have hw₀ : w₀ = [71, 71, 85, 70] := by
    rw [← u32Bytes_u32Of (List.length_getRange? h₀), show u32Of w₀ = ggufMagic by rw [← hmagic, heq]]
    decide
  refine ⟨?_, ?_, ?_, ?_⟩
  · rw [@read_of_range _ mmap.fits _ 0 4 _ rfl rfl h₀, hw₀]
    rfl
  · rw [Scan.u32, @read_of_range _ mmap.fits _ 4 4 _ rfl rfl h₁, heq]
    rfl
  · rw [Scan.u64, @read_of_range _ mmap.fits _ 8 8 _ rfl rfl h₂, heq]
    show Except.ok (fromLe w₂, _) = _
    rw [hword h₂ rfl]
    rfl
  · rw [Scan.u64, @read_of_range _ mmap.fits _ 16 8 _ rfl rfl h₃, heq]
    show Except.ok (fromLe w₃, _) = _
    rw [hword h₃ rfl]
    rfl

theorem sat_inspect (hopen : openFile mmap = .ok r)
    (hmetadata : loop (openMetadata mmap.bytes) r.header.metadataKvCount.toNat [] 24 = .ok (r.metadata, mid))
    (hinfos : loop (openTensor mmap.bytes) r.header.tensorCount.toNat [] mid = .ok (r.tensorInfos, stop)) (hmid : mid ≤ mmap.bytes.length)
    {E : Fault Error → Prop} (hE : ∀ e, IsLimit e → E e)
    (hname : (∃ entry ∈ r.metadata, entry.1.utf8ByteSize = 0) ∨ (∃ info ∈ r.tensorInfos, info.name.utf8ByteSize = 0) →
      E (.error (.metadata none .invalidValue)))
    (htotal : 2 ^ 64 ≤ totalElements r.tensorInfos → E overflow)
    (haccounted : accounted (mid - 24) (stop - mid) (leaves r.metadata) r.metadata.length r.tensorInfos.length = none → E overflow) :
    Sat (inspect mmap.bytes options) (fun n =>
      accounted (mid - 24) (stop - mid) (leaves r.metadata) r.metadata.length r.tensorInfos.length = some n ∧
      Scan.InStep mmap.bytes options.limits r.metadata r.tensorInfos mid ∧ ReaderWithin options.limits r mid stop) E := by
  have hsound := (open_sound mmap).ok hopen
  obtain ⟨-, -, -, hn, hm, -⟩ := hsound
  obtain ⟨-, -, -, hversion, -⟩ := openFile_eq_ok hopen
  obtain ⟨hmagic, hver, htensors, hkv⟩ := header_read hopen
  refine (Sat.mono (sat_checkLimit _ _ _) (fun _ h => h) hE).bind fun _ _ => ?_
  rw [hmagic, ok_bind']
  refine (Sat.failIf fun hne => absurd rfl hne).bind fun _ _ => ?_
  rw [hver, ok_bind']
  refine (Sat.failIf fun hne => ?_).bind fun _ _ => ?_
  · obtain ⟨hlo, hhi⟩ := hversion
    rw [UInt32.le_iff_toNat_le] at hlo hhi
    have htwo : r.header.version.toNat ≠ 2 := fun h => hne.1 (UInt32.toNat_inj.1 h)
    have hthree : r.header.version.toNat ≠ 3 := fun h => hne.2 (UInt32.toNat_inj.1 h)
    change 2 ≤ _ at hlo
    change _ ≤ 3 at hhi
    omega
  rw [htensors, ok_bind']
  show Sat (({ position := 16, consumed := 16 } : Scan).u64 mmap.bytes >>= _) _ _
  rw [hkv, ok_bind']
  refine (Sat.mono (sat_checkLimit _ _ _) (fun _ h => h) hE).bind fun _ htensorCap => ?_
  refine (Sat.mono (sat_checkLimit _ _ _) (fun _ h => h) hE).bind fun _ hentryCap => ?_
  have hentries := @sat_entries _ mmap.fits options.limits _ _ _ E hmetadata hE fun entry hentry hzero => hname (.inl ⟨entry, hentry, hzero⟩)
  refine Sat.bind (Sat.iff_forall.2 ⟨fun s hs => And.intro hs (hentries.ok hs), fun e he => hentries.error he⟩) fun s ⟨hrun, hs⟩ => ?_
  have hsub : (sub s.consumed 24 : Result Nat) = .ok (mid - 24) := by
    rw [hs.consumed]
    exact if_pos hs.header
  rw [hsub, ok_bind', hs.consumed]
  have htensorRun := @sat_tensors _ mmap.fits options.limits _ _ _ _ _ E hs.toAt hmid hinfos hE
    (fun info hinfo hzero => hname (.inr ⟨info, hinfo, hzero⟩)) htotal
  refine Sat.bind (Sat.iff_forall.2 ⟨fun q hq => And.intro hq (htensorRun.ok hq), fun e he => htensorRun.error he⟩) fun q ⟨hrun', hq⟩ => ?_
  obtain ⟨total, s'⟩ := q
  have hsub' : (sub s'.consumed mid : Result Nat) = .ok (stop - mid) := by
    rw [hq.consumed]
    exact if_pos hq.start_le
  show Sat (sub s'.consumed mid >>= _) _ _
  have hleaves : s'.leaves = leaves r.metadata := hq.leaves.trans hs.leaves
  rw [hsub', ok_bind', hleaves, ← hn, ← hm]
  refine (Sat.okOr haccounted).bind fun n hn' => ?_
  refine (Sat.mono (sat_checkLimit _ _ _) (fun _ h => h) hE).bind fun _ _ => ?_
  refine ⟨hn', inStep_of_ok mmap.fits hmetadata hinfos hmid hrun hrun', ?_⟩
  exact ⟨hn ▸ hentryCap, hs.arrays ▸ hs.elements, hs.within, hs.bytes, hm ▸ htensorCap, hq.within, hq.total ▸ hq.terms, hq.index⟩

/-- The preflight follows the reader over every accepted file: it stops at a limit, or, where a name is empty or a size leaves the
word, there; what both accept is within the limits. -/
theorem preflight_in_step (hopen : openFile mmap = .ok r) (options : WriteOptions) :
    ∃ mid stop, loop (openMetadata mmap.bytes) r.metadata.length [] 24 = .ok (r.metadata, mid) ∧
      loop (openTensor mmap.bytes) r.tensorInfos.length [] mid = .ok (r.tensorInfos, stop) ∧
      ((∀ entry ∈ r.metadata, entry.1 ≠ "") → (∀ info ∈ r.tensorInfos, info.name ≠ "") → totalElements r.tensorInfos < 2 ^ 64 →
        accounted (mid - 24) (stop - mid) (leaves r.metadata) r.metadata.length r.tensorInfos.length ≠ none →
        Sat (inspect mmap.bytes options) (fun n =>
          accounted (mid - 24) (stop - mid) (leaves r.metadata) r.metadata.length r.tensorInfos.length = some n ∧
          Scan.InStep mmap.bytes options.limits r.metadata r.tensorInfos mid) IsLimit) ∧
      ∀ n, inspect mmap.bytes options = .ok n →
        Scan.InStep mmap.bytes options.limits r.metadata r.tensorInfos mid ∧ ReaderWithin options.limits r mid stop := by
  obtain ⟨hshort, -, -, -, mid, stop, hmetadata, hinfos⟩ := openFile_eq_ok hopen
  obtain ⟨-, -, -, hn, hm, -⟩ := (open_sound mmap).ok hopen
  have hmid : mid ≤ mmap.bytes.length := ((runs_openMetadata mmap.fits _ hshort).ok hmetadata).2.1
  have hempty {s : String} (h : s.utf8ByteSize = 0) : s = "" := String.utf8ByteSize_eq_zero_iff.1 h
  refine ⟨mid, stop, hn ▸ hmetadata, hm ▸ hinfos, fun hentries htensors htotal haccounted => ?_, fun n h => ?_⟩
  · refine (sat_inspect hopen hmetadata hinfos hmid (fun _ he => he) ?_ (fun h => absurd htotal (Nat.not_lt.2 h))
      fun h => absurd h haccounted).mono (fun n h => ⟨h.1, h.2.1⟩) fun _ he => he
    rintro (⟨entry, hentry, hzero⟩ | ⟨info, hinfo, hzero⟩)
    · exact absurd (hempty hzero) (hentries entry hentry)
    · exact absurd (hempty hzero) (htensors info hinfo)
  · exact ((sat_inspect (E := fun _ => True) hopen hmetadata hinfos hmid (fun _ _ => trivial) (fun _ => trivial)
      (fun _ => trivial) fun _ => trivial).ok h).2

end

/-! ### Two files -/

/-- A metadata entry of one byte and a tensor of one `f32`. -/
def oneTensor : MmapFile where
  bytes := [71, 71, 85, 70] ++ u32Bytes 3 ++ u64Bytes 1 ++ u64Bytes 1 ++ (u64Bytes 1 ++ [107] ++ u32Bytes 0 ++ [7]) ++
    (u64Bytes 1 ++ [119] ++ u32Bytes 1 ++ u64Bytes 1 ++ u32Bytes 0 ++ u64Bytes 0) ++ List.replicate 29 0
  fits := by decide

theorem openFile_oneTensor : ∃ r, GgufReader.openFile oneTensor = .ok r := by
  have h : ((GgufReader.openFile oneTensor).toOption.map fun r => r.tensorInfos.length) = some 1 := by decide +kernel
  obtain ⟨r, hr, -⟩ := Option.map_eq_some_iff.1 h
  exact ⟨r, toOption_eq_some hr⟩

theorem inspect_oneTensor : inspect oneTensor.bytes {} = .ok 1144 := by decide +kernel

theorem preflight_in_step_oneTensor : ∃ r mid stop, GgufReader.openFile oneTensor = .ok r ∧
    Scan.InStep oneTensor.bytes {} r.metadata r.tensorInfos mid ∧ ReaderWithin {} r mid stop := by
  obtain ⟨r, hr⟩ := openFile_oneTensor
  obtain ⟨mid, stop, -, -, -, h⟩ := preflight_in_step hr {}
  exact ⟨r, mid, stop, hr, h 1144 inspect_oneTensor⟩

/-- Two tensors of `2 ^ 63` elements, of a layout that the reader only lists. -/
def twoHuge : MmapFile where
  bytes := [71, 71, 85, 70] ++ u32Bytes 3 ++ u64Bytes 2 ++ u64Bytes 0 ++
    (u64Bytes 1 ++ [97] ++ u32Bytes 1 ++ u64Bytes (2 ^ 63) ++ u32Bytes 3 ++ u64Bytes 0) ++
    (u64Bytes 1 ++ [98] ++ u32Bytes 1 ++ u64Bytes (2 ^ 63) ++ u32Bytes 3 ++ u64Bytes 0)
  fits := by decide

/-- No value exceeds these limits. -/
def unlimited : WriteOptions where
  limits :=
    { maxFileBytes := -1, maxMetadataBytes := -1, maxMetadataEntries := -1, maxMetadataArrayElements := -1, maxNameBytes := -1
      maxStringBytes := -1, maxTensors := -1, maxBlocks := -1, maxIndexBytes := -1, maxBlockTerms := -1, maxBlockBytes := -1
      maxWeightBits := -1, maxWeightDepth := -1, maxTotalTerms := -1 }
  conversion := { maxResidentBytes := -1 }

/-- The reader accepts the file, the total of its elements leaves the word. -/
theorem preflight_overflow : (GgufReader.openFile twoHuge).toOption.map (fun r => (r.metadata, r.tensorInfos.map (·.name))) =
    some ([], ["a", "b"]) ∧ inspect twoHuge.bytes unlimited = .error overflow ∧ ¬ IsLimit overflow := by
  refine ⟨by decide +kernel, by decide +kernel, ?_⟩
  rintro ⟨_, _, _, h⟩
  cases h

end Weights
end BmlSys
