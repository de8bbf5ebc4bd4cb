import BmlSys.Gguf.Reader
import BmlSys.Number.WordsSpec

/-!
# What the GGUF reader accepts

Every decoder that starts inside the file ends inside it, past the bytes that it needed at least: the offsets stay below the
length and no addition wraps. `Valid` is what is known of a descriptor once it is decoded.
-/

namespace BmlSys
open Except BytePack OffsetReader

namespace Gguf

theorem nodup_map_concat {α β : Type} {f : α → β} {l : List α} {a : α} (h : (l.map f).Nodup) (hnew : f a ∉ l.map f) :
    ((l ++ [a]).map f).Nodup := by
  rw [List.map_append]
  refine List.nodup_append.2 ⟨h, List.nodup_singleton _, ?_⟩
  rintro _ ha _ hb rfl
  exact hnew (List.mem_singleton.1 hb ▸ ha)

structure GgufTensorInfo.Valid (info : GgufTensorInfo) : Prop where
  rank : 1 ≤ info.dims.length ∧ info.dims.length ≤ 4
  nDims : info.nDims.toNat = info.dims.length
  nonzero : ∀ d ∈ info.dims, d ≠ 0
  count : elementCount info.dims = some (info.dims.map UInt64.toNat).prod
  fits : (info.dims.map UInt64.toNat).prod < 2 ^ 64

theorem foldlM_checkedMul {dims : List UInt64} {n m : Nat} (hn : n < 2 ^ 64)
    (h : dims.foldlM (fun k (d : UInt64) => checkedMul k d.toNat) n = some m) : m = n * (dims.map UInt64.toNat).prod ∧ m < 2 ^ 64 := by
  induction dims generalizing n with
  | nil =>
    cases h
    exact ⟨(Nat.mul_one _).symm, hn⟩
  | cons d dims ih =>
    rw [List.foldlM_cons] at h
    obtain ⟨k, hk, h⟩ := Option.bind_eq_some_iff.1 h
    rw [checkedMul] at hk
    split at hk
    · rename_i hlt
      cases hk
      obtain ⟨hm, hlt'⟩ := ih hlt h
      exact ⟨by rw [hm, List.map_cons, List.prod_cons, Nat.mul_assoc], hlt'⟩
    · cases hk

theorem elementCount_eq {dims : List UInt64} {n : Nat} (h : elementCount dims = some n) :
    n = (dims.map UInt64.toNat).prod ∧ n < 2 ^ 64 := by
  obtain ⟨hn, hlt⟩ := foldlM_checkedMul (by decide) h
  exact ⟨by rw [hn, Nat.one_mul], hlt⟩

section
variable {bytes : List UInt8} {start : Nat} (hlen : bytes.length ≤ isizeMax) (hstart : start ≤ bytes.length)
include hlen hstart

theorem runs_decodeLe {n : Nat} (hn : n ≤ 8) (e : String) :
    Runs bytes (decodeLe bytes n e) start fun _ stop => stop = start + n := by
  have hfit : bytes.length + n < 2 ^ 64 := by
    unfold isizeMax at hlen
    omega
  exact (Runs.field hfit hstart).bind fun _ mid _ hmid ⟨_, hstop⟩ => Runs.pure hmid hstop

theorem runs_decodeString : Runs bytes (decodeString bytes) start fun _ stop => start + 8 ≤ stop := by
  refine (runs_decodeLe hlen hstart le_rfl _).bind fun len mid _ _ hmid => ?_
  refine (Sat.okOr fun _ => nofun).bind fun stop _ => ?_
  refine (Sat.okOr fun _ => nofun).bind fun data hdata => ?_
  refine (Sat.okOr fun _ => nofun).bind fun s _ => ?_
  obtain ⟨hle, hstop, -⟩ := List.getRange?_eq_some.1 hdata
  exact ⟨hle, hstop, hmid ▸ hle⟩

theorem runs_decodeScalar (typeId : UInt32) : Runs bytes (decodeScalar bytes typeId) start fun _ stop => start + 1 ≤ stop := by
  have hfit : bytes.length < 2 ^ 64 := lt_of_le_of_lt hlen (by decide)
  have hword {α : Type} {n : Nat} (hn : 0 < n) (hn' : n ≤ 8) (e : String) (f : Nat → α) :
      Runs bytes (do let v ← decodeLe bytes n e; pure (f v)) start fun _ stop => start + 1 ≤ stop :=
    (runs_decodeLe hlen hstart hn' e).bind fun _ _ _ hmid h => Runs.pure hmid (by omega)
  refine (Runs.orFail hstart).bind ?_
  rintro dt _ - - ⟨-, rfl⟩
  rcases dt
  case u8 => exact (Runs.byte hfit).bind fun _ _ _ hmid h => Runs.pure hmid h.ge
  case i8 => exact (Runs.byte hfit).bind fun _ _ _ hmid h => Runs.pure hmid h.ge
  case bool =>
    refine (Runs.byte hfit).bind fun v mid _ hmid h => (Runs.check hmid).bind ?_
    rintro _ _ - hmid' ⟨-, rfl⟩
    exact Runs.pure hmid' h.ge
  case string => exact (runs_decodeString hlen hstart).bind fun _ _ _ hmid h => Runs.pure hmid (by omega)
  case u16 | i16 => exact hword (by decide) (by decide) _ _
  case u32 | i32 | f32 => exact hword (by decide) (by decide) _ _
  case u64 | i64 | f64 => exact hword (by decide) (by decide) _ _
  all_goals exact (Runs.orFail hstart).mono fun _ _ _ _ h => (nomatch h.1)

theorem runs_decodeMetadataValue (typeId : UInt32) :
    Runs bytes (decodeMetadataValue bytes typeId) start fun _ stop => start + 1 ≤ stop := by
  have hfit : bytes.length + 12 < 2 ^ 64 := by
    unfold isizeMax at hlen
    omega
  unfold decodeMetadataValue
  split
  · refine (Runs.field hfit hstart).bind ?_
    rintro header mid - hmid ⟨-, rfl⟩
    refine (Runs.check hmid).bind ?_
    rintro _ _ - - ⟨-, rfl⟩
    refine Runs.bind (Q := fun _ stop => start + 12 ≤ stop) ?_ fun values stop _ hstop hle => ?_
    · refine (Runs.loop (I := fun _ (_ : List GgufScalar) _ => True) (fun _ _ _ _ _ hmid' _ => ?_) hmid trivial).mono
        fun _ _ hle _ _ => hle
      exact (runs_decodeScalar hlen hmid' _).bind fun _ _ _ h _ => Runs.pure h trivial
    · refine (Runs.orFail hstop).bind ?_
      rintro _ _ - hstop' ⟨-, rfl⟩
      exact Runs.pure hstop' (by omega)
  · exact (runs_decodeScalar hlen hstart typeId).bind fun _ _ _ hmid h => Runs.pure hmid h

theorem runs_decodeMetadataKv : Runs bytes (decodeMetadataKv bytes) start fun _ stop => start + 13 ≤ stop := by
  refine (runs_decodeString hlen hstart).bind fun key _ _ hkey h => ?_
  refine (runs_decodeLe hlen hkey (by decide) _).bind fun valueType _ _ hmid h' => ?_
  exact (runs_decodeMetadataValue hlen hmid _).bind fun _ _ _ hstop h'' => Runs.pure hstop (by omega)

theorem runs_decodeDims (n : Nat) : Runs bytes (loop (decodeDim bytes) n []) start
    fun dims stop => dims.length = n ∧ stop = start + 8 * n := by
  refine Runs.loop (I := fun i (dims : List UInt64) mid => dims.length = i ∧ mid = start + 8 * i) (fun i _ dims mid _ hmid h => ?_) hstart
    ⟨rfl, rfl⟩
  obtain ⟨hdims, hmid'⟩ := h
  refine (runs_decodeLe hlen hmid le_rfl _).bind fun dim _ _ hstop hle => Runs.pure hstop ?_
  exact ⟨by rw [List.length_append, hdims]; rfl, by omega⟩

theorem runs_decodeTensorInfo :
    Runs bytes (decodeTensorInfo bytes) start fun info stop => start + 32 ≤ stop ∧ info.Valid := by
  refine (runs_decodeString hlen hstart).bind fun name _ _ hname h => ?_
  refine (runs_decodeLe hlen hname (by decide) _).bind fun nDims _ _ hmid h' => (Runs.check hmid).bind ?_
  rintro _ _ - hmid' ⟨hrank, rfl⟩
  rw [not_not] at hrank
  refine (runs_decodeDims hlen hmid' nDims).bind fun dims _ _ hdims ⟨hcount, hle⟩ => (Runs.check hdims).bind ?_
  rintro _ _ - hdims' ⟨hvalid, rfl⟩
  refine (runs_decodeLe hlen hdims' (by decide) _).bind fun raw _ _ hraw h'' => (Runs.orFail hraw).bind ?_
  rintro dataType _ - hraw' ⟨-, rfl⟩
  refine (runs_decodeLe hlen hraw' le_rfl _).bind fun offset stop _ hstop h''' => Runs.pure hstop ⟨by omega, ?_⟩
  rw [not_or] at hvalid
  obtain ⟨n, hn⟩ := Option.ne_none_iff_exists'.1 hvalid.2
  obtain ⟨rfl, hlt⟩ := elementCount_eq hn
  refine ⟨hcount.symm ▸ hrank, ?_, fun d hd hzero => hvalid.1 (hzero ▸ hd), hn, hlt⟩
  rw [hcount, UInt32.toNat_ofNat_of_lt' (show nDims < 2 ^ 32 by omega)]

end

/-! ### What a successful run has read -/

theorem decodeLe_eq_ok {bytes : List UInt8} {n start v stop : Nat} {e : String} (h : decodeLe bytes n e start = .ok (v, stop)) :
    ∃ w, bytes.getRange? start (start + n) = some w ∧ stop = start + n ∧ v = fromLe w := by
  obtain ⟨w, mid, hfield, h⟩ := OffsetReader.bind_eq_ok.1 h
  cases h
  obtain ⟨rfl, hw⟩ := field_eq_ok hfield
  exact ⟨w, hw, rfl, rfl⟩

theorem utf8ByteSize_of_fromUTF8? {data : List UInt8} {s : String} (h : String.fromUTF8? ⟨data.toArray⟩ = some s) :
    s.utf8ByteSize = data.length := by
  unfold String.fromUTF8? at h
  split at h
  · cases h
    rfl
  · cases h

theorem decodeString_eq_ok {bytes : List UInt8} {start stop : Nat} {s : String} (h : decodeString bytes start = .ok (s, stop)) :
    ∃ w, bytes.getRange? start (start + 8) = some w ∧ fromLe w = s.utf8ByteSize ∧ stop = start + 8 + s.utf8ByteSize ∧
      stop ≤ bytes.length := by
  obtain ⟨len, mid, hlen, h⟩ := OffsetReader.bind_eq_ok.1 h
  obtain ⟨w, hw, rfl, rfl⟩ := decodeLe_eq_ok hlen
  obtain ⟨end', hadd, h⟩ := Except.bind_eq_ok.1 h
  obtain ⟨data, hdata, h⟩ := Except.bind_eq_ok.1 h
  obtain ⟨text, htext, h⟩ := Except.bind_eq_ok.1 h
  cases h
  obtain ⟨-, rfl⟩ := checkedAdd_eq_some.1 (okOr_eq_ok.1 hadd)
  have hrange := okOr_eq_ok.1 hdata
  have hsize := utf8ByteSize_of_fromUTF8? (okOr_eq_ok.1 htext)
  rw [List.length_getRange? hrange, Nat.add_sub_cancel_left] at hsize
  exact ⟨w, hw, hsize.symm, by rw [hsize], (List.getRange?_eq_some.1 hrange).2.1⟩

/-- The bytes of a scalar of a fixed width. -/
def scalarWidth : Nat → Option Nat
  | 0 | 1 | 7 => some 1
  | 2 | 3 => some 2
  | 4 | 5 | 6 => some 4
  | 10 | 11 | 12 => some 8
  | _ => none

/-- The bytes of a value's text. -/
def GgufScalar.textBytes : GgufScalar → Nat
  | .string s => s.utf8ByteSize
  | _ => 0

theorem decodeScalar_eq_ok {bytes : List UInt8} {typeId : UInt32} {start stop : Nat} {v : GgufScalar}
    (h : decodeScalar bytes typeId start = .ok (v, stop)) :
    (typeId.toNat = 8 ∧ ∃ s, v = .string s ∧ decodeString bytes start = .ok (s, stop)) ∨
    ∃ n, scalarWidth typeId.toNat = some n ∧ 0 < n ∧ stop = start + n ∧ stop ≤ bytes.length ∧ v.textBytes = 0 := by
  have hword {n : Nat} {e : String} {f : Nat → GgufScalar} {x : GgufScalar} {mid : Nat} (hn : 0 < n) (hf : ∀ w, (f w).textBytes = 0)
      (h : (do let w ← decodeLe bytes n e; pure (f w) : OffsetReader String GgufScalar) start = .ok (x, mid)) :
      0 < n ∧ mid = start + n ∧ mid ≤ bytes.length ∧ x.textBytes = 0 := by
    obtain ⟨w, _, hw, h⟩ := OffsetReader.bind_eq_ok.1 h
    obtain ⟨_, hrange, rfl, -⟩ := decodeLe_eq_ok hw
    cases h
    exact ⟨hn, rfl, (List.getRange?_eq_some.1 hrange).2.1, hf w⟩
  have hbyte {e : String} {b : UInt8} {mid : Nat} (h : byte bytes e start = .ok (b, mid)) :
      mid = start + 1 ∧ mid ≤ bytes.length := by
    obtain ⟨rfl, hb⟩ := byte_eq_ok h
    exact ⟨rfl, (List.getElem?_eq_some_iff.1 hb).1⟩
  obtain ⟨dt, _, hdt, h⟩ := OffsetReader.bind_eq_ok.1 h
  obtain ⟨hdt, rfl⟩ := orFail_eq_ok hdt
  unfold GgufDataType.fromMetadataU32 at hdt
  generalize typeId.toNat = k at hdt
  split at hdt <;> cases hdt
  case h_1 | h_2 =>
    obtain ⟨b, mid, hb, h⟩ := OffsetReader.bind_eq_ok.1 h
    cases h
    obtain ⟨rfl, hle⟩ := hbyte hb
    exact .inr ⟨1, rfl, Nat.one_pos, rfl, hle, rfl⟩
  case h_3 | h_4 => exact .inr ⟨2, rfl, hword (by decide) (fun _ => rfl) h⟩
  case h_5 | h_6 | h_7 => exact .inr ⟨4, rfl, hword (by decide) (fun _ => rfl) h⟩
  case h_8 =>
    obtain ⟨b, mid, hb, h⟩ := OffsetReader.bind_eq_ok.1 h
    obtain ⟨rfl, hle⟩ := hbyte hb
    obtain ⟨_, _, hcheck, h⟩ := OffsetReader.bind_eq_ok.1 h
    obtain ⟨-, rfl⟩ := check_eq_ok hcheck
    cases h
    exact .inr ⟨1, rfl, Nat.one_pos, rfl, hle, rfl⟩
  case h_9 =>
    obtain ⟨s, _, hs, h⟩ := OffsetReader.bind_eq_ok.1 h
    cases h
    exact .inl ⟨rfl, s, rfl, hs⟩
  case h_10 => exact nomatch (orFail_eq_ok h).1
  case h_11 | h_12 | h_13 => exact .inr ⟨8, rfl, hword (by decide) (fun _ => rfl) h⟩

theorem decodeMetadataKv_eq_ok {bytes : List UInt8} {start stop : Nat} {key : String} {value : GgufMetadataValue}
    (h : decodeMetadataKv bytes start = .ok ((key, value), stop)) :
    ∃ mid w, decodeString bytes start = .ok (key, mid) ∧ bytes.getRange? mid (mid + 4) = some w ∧
      decodeMetadataValue bytes (.ofNat (fromLe w)) (mid + 4) = .ok (value, stop) := by
  obtain ⟨_, mid, hkey, h⟩ := OffsetReader.bind_eq_ok.1 h
  obtain ⟨_, _, htype, h⟩ := OffsetReader.bind_eq_ok.1 h
  obtain ⟨w, hw, rfl, rfl⟩ := decodeLe_eq_ok htype
  obtain ⟨_, _, hvalue, h⟩ := OffsetReader.bind_eq_ok.1 h
  cases h
  exact ⟨mid, w, hkey, hw, hvalue⟩

theorem decodeDim_eq_ok {bytes : List UInt8} {dims dims' : List UInt64} {start stop : Nat}
    (h : decodeDim bytes dims start = .ok (dims', stop)) :
    ∃ w, bytes.getRange? start (start + 8) = some w ∧ stop = start + 8 ∧ dims' = dims ++ [.ofNat (fromLe w)] := by
  obtain ⟨_, _, hdim, h⟩ := OffsetReader.bind_eq_ok.1 h
  obtain ⟨w, hw, rfl, rfl⟩ := decodeLe_eq_ok hdim
  cases h
  exact ⟨w, hw, rfl, rfl⟩

theorem decodeDim_concat {bytes : List UInt8} {dims dims' : List UInt64} {start stop : Nat}
    (h : decodeDim bytes dims start = .ok (dims', stop)) : ∃ dim, dims' = dims ++ [dim] :=
  have ⟨w, _, _, hdims⟩ := decodeDim_eq_ok h
  ⟨.ofNat (fromLe w), hdims⟩

theorem decodeTensorInfo_eq_ok {bytes : List UInt8} {start stop : Nat} {info : GgufTensorInfo}
    (h : decodeTensorInfo bytes start = .ok (info, stop)) :
    ∃ mid w dimsEnd, decodeString bytes start = .ok (info.name, mid) ∧ bytes.getRange? mid (mid + 4) = some w ∧
      1 ≤ fromLe w ∧ fromLe w ≤ 4 ∧ loop (decodeDim bytes) (fromLe w) [] (mid + 4) = .ok (info.dims, dimsEnd) ∧
      stop = dimsEnd + 12 ∧ stop ≤ bytes.length := by
  obtain ⟨name, mid, hname, h⟩ := OffsetReader.bind_eq_ok.1 h
  obtain ⟨_, _, hrank, h⟩ := OffsetReader.bind_eq_ok.1 h
  obtain ⟨w, hw, rfl, rfl⟩ := decodeLe_eq_ok hrank
  obtain ⟨_, _, hcheck, h⟩ := OffsetReader.bind_eq_ok.1 h
  obtain ⟨hrange, rfl⟩ := check_eq_ok hcheck
  obtain ⟨dims, dimsEnd, hdims, h⟩ := OffsetReader.bind_eq_ok.1 h
  obtain ⟨_, _, hcheck', h⟩ := OffsetReader.bind_eq_ok.1 h
  obtain ⟨-, rfl⟩ := check_eq_ok hcheck'
  obtain ⟨_, _, hraw, h⟩ := OffsetReader.bind_eq_ok.1 h
  obtain ⟨_, -, rfl, rfl⟩ := decodeLe_eq_ok hraw
  obtain ⟨_, _, htype, h⟩ := OffsetReader.bind_eq_ok.1 h
  obtain ⟨-, rfl⟩ := orFail_eq_ok htype
  obtain ⟨_, _, hoffset, h⟩ := OffsetReader.bind_eq_ok.1 h
  obtain ⟨_, hlast, rfl, rfl⟩ := decodeLe_eq_ok hoffset
  cases h
  rw [not_not] at hrange
  exact ⟨mid, w, _, hname, hw, hrange.1, hrange.2, hdims, rfl, (List.getRange?_eq_some.1 hlast).2.1⟩

namespace GgufReader

theorem openMetadata_eq_ok {bytes : List UInt8} {metadata metadata' : List (String × GgufMetadataValue)} {start stop : Nat}
    (h : openMetadata bytes metadata start = .ok (metadata', stop)) :
    ∃ entry, decodeMetadataKv bytes start = .ok (entry, stop) ∧ metadata' = metadata ++ [entry] := by
  obtain ⟨⟨entry, mid⟩, hentry, h⟩ := Except.bind_eq_ok.1 h
  obtain ⟨_, -, h⟩ := Except.bind_eq_ok.1 h
  cases h
  exact ⟨entry, mapErr_eq_ok.1 hentry, rfl⟩

theorem openTensor_eq_ok {bytes : List UInt8} {infos infos' : List GgufTensorInfo} {start stop : Nat}
    (h : openTensor bytes infos start = .ok (infos', stop)) :
    ∃ info, decodeTensorInfo bytes start = .ok (info, stop) ∧ infos' = infos ++ [info] := by
  obtain ⟨⟨info, mid⟩, hinfo, h⟩ := Except.bind_eq_ok.1 h
  obtain ⟨_, -, h⟩ := Except.bind_eq_ok.1 h
  cases h
  exact ⟨info, mapErr_eq_ok.1 hinfo, rfl⟩

section
variable {bytes : List UInt8} (hlen : bytes.length ≤ isizeMax)
include hlen

theorem runs_openMetadata (n : Nat) {start : Nat} (hstart : start ≤ bytes.length) :
    Runs bytes (loop (openMetadata bytes) n []) start fun metadata stop =>
      metadata.length = n ∧ (metadata.map Prod.fst).Nodup ∧ start + 13 * n ≤ stop := by
  refine Runs.loop (I := fun i (metadata : List (String × GgufMetadataValue)) mid => metadata.length = i ∧ (metadata.map Prod.fst).Nodup ∧ start + 13 * i ≤ mid)
    (fun i _ metadata mid _ hmid h => ?_) hstart ⟨rfl, List.nodup_nil, le_rfl⟩
  obtain ⟨hcount, hnodup, hle⟩ := h
  refine Sat.bind (runs_decodeMetadataKv hlen hmid).mapErr ?_
  rintro ⟨⟨key, value⟩, stop⟩ ⟨hstop, hstop', hle'⟩
  refine (Sat.failIf fun _ => nofun).bind fun _ hnew => ?_
  exact ⟨hstop, hstop', by rw [List.length_append, hcount]; rfl, nodup_map_concat hnodup hnew, by omega⟩

theorem runs_openTensor (n : Nat) {start : Nat} (hstart : start ≤ bytes.length) :
    Runs bytes (loop (openTensor bytes) n []) start fun infos stop =>
      infos.length = n ∧ (infos.map GgufTensorInfo.name).Nodup ∧ (∀ info ∈ infos, info.Valid) ∧ start + 32 * n ≤ stop := by
  refine Runs.loop (I := fun i (infos : List GgufTensorInfo) mid => infos.length = i ∧ (infos.map GgufTensorInfo.name).Nodup ∧
    (∀ info ∈ infos, info.Valid) ∧ start + 32 * i ≤ mid) (fun i _ infos mid _ hmid h => ?_) hstart
    ⟨rfl, List.nodup_nil, fun _ h => (nomatch h), le_rfl⟩
  obtain ⟨hcount, hnodup, hvalid, hle⟩ := h
  refine Sat.bind (runs_decodeTensorInfo hlen hmid).mapErr ?_
  rintro ⟨info, stop⟩ ⟨hstop, hstop', hle', hinfo⟩
  refine (Sat.failIf fun _ => nofun).bind fun _ hnew => ?_
  refine ⟨hstop, hstop', by rw [List.length_append, hcount]; rfl, nodup_map_concat hnodup hnew, ?_, by omega⟩
  exact fun i hi => (List.mem_append.1 hi).elim (hvalid i) fun hi => List.mem_singleton.1 hi ▸ hinfo

end

theorem decodeHeader_ok {bytes : List UInt8} (h : 24 ≤ bytes.length) : ∃ header, decodeHeader bytes = .ok header := by
  rw [decodeHeader, slice_of_le (by decide) (by omega), slice_of_le (by decide) (by omega), slice_of_le (by decide) (by omega),
    slice_of_le (by decide) h]
  exact ⟨_, rfl⟩

theorem sat_openAlignment (metadata : List (String × GgufMetadataValue)) :
    Sat (openAlignment metadata) (fun alignment => openAlignment metadata = .ok alignment ∧ 0 < alignment) (· ≠ .panic) := by
  unfold openAlignment
  split
  · exact ⟨rfl, by decide⟩
  · split
    · rename_i n h
      refine ⟨rfl, Nat.pos_of_ne_zero fun hzero => h.1 ?_⟩
      exact UInt32.toNat_inj.1 hzero
    · exact nofun
  · exact nofun

theorem sat_checkTensor (parser : GgufReader) (alignment : Nat) (info : GgufTensorInfo) :
    Sat (checkTensor parser alignment info) (fun _ => alignment ∣ info.offset.toNat ∧
      (supportedLayout info.dataType → ∃ data, parser.tensorData info = some data)) (· ≠ .panic) := by
  refine (Sat.failIf fun _ => nofun).bind fun _ haligned => (Sat.failIf fun _ => nofun).mono (fun _ hrange => ?_) fun _ he => he
  refine ⟨Nat.dvd_of_mod_eq_zero (not_not.1 haligned), fun hlayout => ?_⟩
  exact Option.ne_none_iff_exists'.1 fun hnone => hrange ⟨hlayout, hnone⟩

/-- The range of a tensor's data. -/
theorem tensorData_eq_some {r : GgufReader} {info : GgufTensorInfo} {data : List UInt8} (h : r.tensorData info = some data) :
    ∃ len, encodedTensorLen info = some len ∧ data.length = len ∧
      r.tensorDataOffset + info.offset.toNat + len ≤ r.mmap.bytes.length ∧
      data = (r.mmap.bytes.drop (r.tensorDataOffset + info.offset.toNat)).take len := by
  obtain ⟨dataStart, hstart, h⟩ := Option.bind_eq_some_iff.1 h
  obtain ⟨len, hlen, h⟩ := Option.bind_eq_some_iff.1 h
  obtain ⟨dataEnd, hend, h⟩ := Option.bind_eq_some_iff.1 h
  obtain ⟨-, rfl⟩ := checkedAdd_eq_some.1 hstart
  obtain ⟨-, rfl⟩ := checkedAdd_eq_some.1 hend
  have hdata := List.length_getRange? h
  obtain ⟨-, hstop, rfl⟩ := List.getRange?_eq_some.1 h
  rw [Nat.add_sub_cancel_left] at hdata
  exact ⟨len, hlen, hdata, hstop, by rw [List.drop_take, Nat.add_sub_cancel_left]⟩

/-- Distinct names: a descriptor is found by its own. -/
theorem findTensor_of_mem {r : GgufReader} (hnodup : (r.tensorInfos.map GgufTensorInfo.name).Nodup) {info : GgufTensorInfo}
    (h : info ∈ r.tensorInfos) : r.findTensor info.name = some info := by
  rw [findTensor]
  generalize r.tensorInfos = infos at hnodup h
  induction infos with
  | nil => cases h
  | cons first infos ih =>
    rw [List.map_cons, List.nodup_cons] at hnodup
    rcases List.mem_cons.1 h with rfl | h
    · exact List.find?_cons_of_pos (decide_eq_true rfl)
    · have hne : ¬ first.name = info.name := fun heq => hnodup.1 (heq ▸ List.mem_map_of_mem h)
      rw [List.find?_cons_of_neg (by simpa using hne), ih hnodup.2 h]

/-- What an opened file has passed: its header, and the two loops with the offsets where they end. -/
theorem openFile_eq_ok {mmap : MmapFile} {r : GgufReader} (h : openFile mmap = .ok r) :
    24 ≤ mmap.bytes.length ∧ decodeHeader mmap.bytes = .ok r.header ∧ r.header.magic = ggufMagic ∧
      (2 ≤ r.header.version ∧ r.header.version ≤ ggufSupportedVersion) ∧ ∃ mid stop,
      loop (openMetadata mmap.bytes) r.header.metadataKvCount.toNat [] 24 = .ok (r.metadata, mid) ∧
      loop (openTensor mmap.bytes) r.header.tensorCount.toNat [] mid = .ok (r.tensorInfos, stop) := by
  obtain ⟨_, hshort, h⟩ := Except.bind_eq_ok.1 h
  obtain ⟨header, hheader, h⟩ := Except.bind_eq_ok.1 h
  obtain ⟨_, -, h⟩ := Except.bind_eq_ok.1 h
  obtain ⟨_, hmagic, h⟩ := Except.bind_eq_ok.1 h
  obtain ⟨_, hversion, h⟩ := Except.bind_eq_ok.1 h
  obtain ⟨⟨metadata, mid⟩, hmetadata, h⟩ := Except.bind_eq_ok.1 h
  obtain ⟨⟨tensorInfos, stop⟩, htensors, h⟩ := Except.bind_eq_ok.1 h
  obtain ⟨alignment, -, h⟩ := Except.bind_eq_ok.1 h
  obtain ⟨padding, -, h⟩ := Except.bind_eq_ok.1 h
  obtain ⟨n, -, h⟩ := Except.bind_eq_ok.1 h
  obtain ⟨_, -, h⟩ := Except.bind_eq_ok.1 h
  cases h
  rw [failIf_eq_ok] at hshort hmagic hversion
  exact ⟨Nat.not_lt.1 hshort, hheader, not_not.1 hmagic, not_not.1 hversion, mid, stop, hmetadata, htensors⟩

theorem checkTensor_of_openFile {mmap : MmapFile} {r : GgufReader} (h : openFile mmap = .ok r) :
    ∃ alignment, ∀ info ∈ r.tensorInfos, checkTensor r alignment info = .ok () := by
  obtain ⟨_, -, h⟩ := Except.bind_eq_ok.1 h
  obtain ⟨header, -, h⟩ := Except.bind_eq_ok.1 h
  obtain ⟨_, -, h⟩ := Except.bind_eq_ok.1 h
  obtain ⟨_, -, h⟩ := Except.bind_eq_ok.1 h
  obtain ⟨_, -, h⟩ := Except.bind_eq_ok.1 h
  obtain ⟨⟨metadata, mid⟩, -, h⟩ := Except.bind_eq_ok.1 h
  obtain ⟨⟨tensorInfos, stop⟩, -, h⟩ := Except.bind_eq_ok.1 h
  obtain ⟨alignment, -, h⟩ := Except.bind_eq_ok.1 h
  obtain ⟨padding, -, h⟩ := Except.bind_eq_ok.1 h
  obtain ⟨n, -, h⟩ := Except.bind_eq_ok.1 h
  obtain ⟨_, hcheck, h⟩ := Except.bind_eq_ok.1 h
  cases h
  exact ⟨alignment, forM_eq_ok.1 hcheck⟩

/-- The view of a tensor of a known layout holds its encoded bytes. -/
theorem tensorView_of_openFile {mmap : MmapFile} {r : GgufReader} (h : openFile mmap = .ok r) {info : GgufTensorInfo}
    (hinfo : info ∈ r.tensorInfos) (hlayout : supportedLayout info.dataType = true) :
    ∃ data, r.tensorView info.name = .ok ⟨info, data⟩ ∧ encodedTensorLen info = some data.length ∧ data.length ≤ isizeMax := by
  obtain ⟨hshort, -, -, -, mid, stop, hmetadata, htensors⟩ := openFile_eq_ok h
  obtain ⟨alignment, hcheck⟩ := checkTensor_of_openFile h
  obtain ⟨-, hmid, -⟩ := Sat.ok (runs_openMetadata mmap.fits _ hshort) hmetadata
  obtain ⟨-, -, -, hnames, -⟩ := Sat.ok (runs_openTensor mmap.fits _ hmid) htensors
  obtain ⟨data, hdata⟩ := (Sat.ok (sat_checkTensor r alignment info) (hcheck info hinfo)).2 hlayout
  obtain ⟨len, hlen, rfl, hinside, -⟩ := tensorData_eq_some hdata
  refine ⟨data, ?_, hlen, (Nat.le_trans (Nat.le_add_left _ _) hinside).trans r.mmap.fits⟩
  simp only [tensorView, findTensor_of_mem hnames hinfo, okOr, ok_bind', hdata]
  rfl

theorem decodeHeader_eq_ok {bytes : List UInt8} {header : GgufHeader} (h : decodeHeader bytes = .ok header) :
    ∃ w₀ w₁ w₂ w₃, bytes.getRange? 0 4 = some w₀ ∧ bytes.getRange? 4 8 = some w₁ ∧ bytes.getRange? 8 16 = some w₂ ∧
      bytes.getRange? 16 24 = some w₃ ∧
      header = { magic := u32Of w₀, version := u32Of w₁, tensorCount := u64Of w₂, metadataKvCount := u64Of w₃ } := by
  obtain ⟨w₀, h₀, h⟩ := Except.bind_eq_ok.1 h
  obtain ⟨w₁, h₁, h⟩ := Except.bind_eq_ok.1 h
  obtain ⟨w₂, h₂, h⟩ := Except.bind_eq_ok.1 h
  obtain ⟨w₃, h₃, h⟩ := Except.bind_eq_ok.1 h
  cases h
  exact ⟨w₀, w₁, w₂, w₃, okOr_eq_ok.1 h₀, okOr_eq_ok.1 h₁, okOr_eq_ok.1 h₂, okOr_eq_ok.1 h₃, rfl⟩

/-- Opening a file ends without a panic. What it accepts has distinct keys and names, as many records as the file has room
for, and valid, aligned descriptors; the tensors of a known layout lie inside the file. -/
theorem open_sound (mmap : MmapFile) : Sat (openFile mmap) (fun r =>
    r.mmap = mmap ∧ (r.metadata.map Prod.fst).Nodup ∧ (r.tensorInfos.map GgufTensorInfo.name).Nodup ∧
    r.metadata.length = r.header.metadataKvCount.toNat ∧ r.tensorInfos.length = r.header.tensorCount.toNat ∧
    24 + 13 * r.metadata.length + 32 * r.tensorInfos.length ≤ mmap.bytes.length ∧
    ∃ alignment, openAlignment r.metadata = .ok alignment ∧ ∀ info ∈ r.tensorInfos,
      info.Valid ∧ alignment ∣ info.offset.toNat ∧
      (supportedLayout info.dataType → ∃ len data, encodedTensorLen info = some len ∧
        r.tensorView info.name = .ok ⟨info, data⟩ ∧ data.length = len ∧
        r.tensorDataOffset + info.offset.toNat + len ≤ mmap.bytes.length ∧
        data = (mmap.bytes.drop (r.tensorDataOffset + info.offset.toNat)).take len)) (· ≠ .panic) := by
  refine (Sat.failIf fun _ => nofun).bind fun _ hshort => ?_
  rw [Nat.not_lt] at hshort
  obtain ⟨header, hheader⟩ := decodeHeader_ok hshort
  rw [hheader, ok_bind']
  refine (Sat.failIf fun _ => nofun).bind fun _ _ => (Sat.failIf fun _ => nofun).bind fun _ _ => ?_
  refine (Sat.failIf fun _ => nofun).bind fun _ _ => ?_
  refine Sat.bind (runs_openMetadata mmap.fits _ hshort) ?_
  rintro ⟨metadata, offset⟩ ⟨-, hmid, hcount, hkeys, hoffset⟩
  refine Sat.bind (runs_openTensor mmap.fits _ hmid) ?_
  rintro ⟨tensorInfos, offset'⟩ ⟨-, hend, hcount', hnames, hvalid, hoffset'⟩
  refine (sat_openAlignment metadata).bind fun alignment ⟨halignment, hpos⟩ => ?_
  have hsub : (sub alignment 1 : Except (Fault GgufError) Nat) = .ok (alignment - 1) := if_pos hpos
  rw [hsub, ok_bind']
  refine (Sat.okOr fun _ => nofun).bind fun n _ => ?_
  refine (Sat.forM fun info _ => sat_checkTensor _ alignment info).bind fun _ hall => ?_
  have htotal : 24 + 13 * metadata.length + 32 * tensorInfos.length ≤ mmap.bytes.length := by
    rw [hcount, hcount']
    omega
  refine ⟨rfl, hkeys, hnames, hcount, hcount', htotal, alignment, halignment, fun info hinfo => ?_⟩
  obtain ⟨haligned, hrange⟩ := hall info hinfo
  refine ⟨hvalid info hinfo, haligned, fun hlayout => ?_⟩
  obtain ⟨data, hdata⟩ := hrange hlayout
  obtain ⟨len, hlen, hlength, hinside, hbytes⟩ := tensorData_eq_some hdata
  refine ⟨len, data, hlen, ?_, hlength, hinside, hbytes⟩
  rw [tensorView, findTensor_of_mem hnames hinfo]
  show (okOr (tensorData _ info) _ >>= _) = _
  rw [hdata]
  rfl

end GgufReader
end Gguf
end BmlSys
