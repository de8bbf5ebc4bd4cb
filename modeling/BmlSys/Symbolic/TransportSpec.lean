import BmlSys.Symbolic.CausalSpec
import BmlSys.Symbolic.Transport

/-!
# Client and session agree

A frame survives the wire or is not readable (`readFrame_frame`, `readFrame_cut`), and the server sees exactly the
call the client made (`answer_effect`). The invariant `Connection.Inv` says where the exchange stands: before the
request, while the request or its response is in flight, or after the server has stopped. Each action keeps it,
and in every reachable state a healthy client between two calls has the position and the pending row of the
session.
-/

namespace BmlSys
namespace Symbolic

open BytePack

/-! ### The wire -/

@[simp] theorem length_le32 (x : UInt32) : (le32 x).length = 4 := length_toLe 4 _

@[simp] theorem length_le64 (x : F64) : (le64 x).length = 8 := length_toLe 8 _

theorem fromLe_le32 (x : UInt32) : fromLe (le32 x) = x.toNat :=
  fromLe_toLe (x.toNat_lt.trans_eq (by norm_num))

theorem length_flatMap_le64 (l : List F64) : (l.flatMap le64).length = 8 * l.length := by
  induction l with
  | nil => rfl
  | cons x l ih =>
    rw [List.flatMap_cons, List.length_append, ih, length_le64, List.length_cons]
    ring

theorem f64Chunks_le64 (x : F64) (rest : List UInt8) : f64Chunks (le64 x ++ rest) = x :: f64Chunks rest := by
  have hx : fromLe (le64 x) = x.bits.toNat := fromLe_toLe (x.bits.toNat_lt.trans_eq (by norm_num))
  change F64.mk (UInt64.ofNat (fromLe (le64 x))) :: f64Chunks rest = _
  rw [hx, UInt64.ofNat_toNat]

theorem f64Chunks_flatMap (l : List F64) : f64Chunks (l.flatMap le64) = l := by
  induction l with
  | nil => rfl
  | cons x l ih => rw [List.flatMap_cons, f64Chunks_le64, ih]

theorem wordAt_append (pre rest : List UInt8) (x : UInt32) {n : Nat} (h : pre.length = n) :
    wordAt (pre ++ (le32 x ++ rest)) n = x := by
  subst h
  have hdrop : (pre ++ (le32 x ++ rest)).drop pre.length = le32 x ++ rest := List.drop_left
  have htake : (le32 x ++ rest).take 4 = le32 x := List.take_left' (length_le32 x)
  rw [wordAt, hdrop, htake, fromLe_le32, UInt32.ofNat_toNat]

theorem u32At_eq_ok {bytes : List UInt8} (start : Nat) (h : start + 4 ≤ bytes.length) :
    u32At bytes start = .ok (wordAt bytes start) := by
  have hlen : ¬ bytes.length < start + 4 := by omega
  simp [u32At, Except.failIf, hlen, pure, Except.pure]

theorem positionRequest_le32 (code : UInt8) (p : UInt32) : positionRequest (code :: le32 p) = .ok p := by
  have hlen : (code :: le32 p).length = 5 := by simp
  have hword : wordAt (code :: le32 p) 1 = p := by
    simpa using wordAt_append [code] [] p (n := 1) rfl
  simp [positionRequest, Except.failIf, u32At_eq_ok 1 hlen.ge, hword]

/-- The bytes of a vector request or response. -/
theorem vectors_le64 {p : UInt32} {hidden : List F64} {width : Nat} (hlen : hidden.length = width) (hwidth : width < 2 ^ 32)
    (hfinite : (hidden.any fun x => !x.isFinite) = false) (code : UInt8) :
    vectors (code :: le32 p ++ (le32 (UInt32.ofNat hidden.length) ++ hidden.flatMap le64)) width = .ok (p, hidden) := by
  have hbytes : (code :: le32 p ++ (le32 (UInt32.ofNat hidden.length) ++ hidden.flatMap le64)).length =
      9 + 8 * hidden.length := by
    simp only [List.cons_append, List.length_cons, List.length_append, length_le32, length_flatMap_le64]
    omega
  have hposition : wordAt (code :: le32 p ++ (le32 (UInt32.ofNat hidden.length) ++ hidden.flatMap le64)) 1 = p := by
    simpa using wordAt_append [code] _ p (n := 1) rfl
  have hcount : wordAt (code :: le32 p ++ (le32 (UInt32.ofNat hidden.length) ++ hidden.flatMap le64)) 5 =
      UInt32.ofNat hidden.length := wordAt_append _ _ _ (by simp)
  have hnat : (UInt32.ofNat hidden.length).toNat = hidden.length := by
    rw [UInt32.toNat_ofNat', Nat.mod_eq_of_lt (hlen.trans_lt hwidth)]
  have hdrop : (code :: le32 p ++ (le32 (UInt32.ofNat hidden.length) ++ hidden.flatMap le64)).drop 9 =
      hidden.flatMap le64 := by
    rw [← List.append_assoc]
    exact List.drop_left' (by simp)
  unfold vectors
  rw [u32At_eq_ok 1 (by omega), u32At_eq_ok 5 (by omega), hposition, hcount]
  simp only [Except.ok_bind', hnat, hbytes, hdrop, f64Chunks_flatMap, hfinite]
  simp [Except.failIf, hlen, show ¬ width * 8 + 9 ≠ 9 + 8 * width by omega, pure, Except.pure]

theorem writeFrame_eq_ok {bytes wire : List UInt8} {limit : Nat} : writeFrame bytes limit = .ok wire ↔
    bytes ≠ [] ∧ bytes.length ≤ limit ∧ le32 (UInt32.ofNat bytes.length) ++ bytes = wire := by
  unfold writeFrame
  rw [Except.bind_eq_ok]
  constructor
  · rintro ⟨_, hsize, hwire⟩
    rw [Except.failIf_eq_ok] at hsize
    push Not at hsize
    exact ⟨hsize.1, hsize.2, Except.pure_eq_ok.1 hwire⟩
  · rintro ⟨hne, hlen, hwire⟩
    exact ⟨(), Except.failIf_eq_ok.2 (by push Not; exact ⟨hne, hlen⟩), Except.pure_eq_ok.2 hwire⟩

/-- The length a frame announces is its own. -/
theorem fromLe_take_frame {bytes wire : List UInt8} {limit : Nat} (h : writeFrame bytes limit = .ok wire)
    (hlimit : limit < 2 ^ 32) (rest : List UInt8) : fromLe ((wire ++ rest).take 4) = bytes.length := by
  obtain ⟨-, hlen, rfl⟩ := writeFrame_eq_ok.1 h
  rw [List.append_assoc, List.take_left' (length_le32 _), fromLe_le32, UInt32.toNat_ofNat',
    Nat.mod_eq_of_lt (hlen.trans_lt hlimit)]

theorem length_frame {bytes wire : List UInt8} {limit : Nat} (h : writeFrame bytes limit = .ok wire) :
    wire.length = 4 + bytes.length := by
  obtain ⟨-, -, rfl⟩ := writeFrame_eq_ok.1 h
  rw [List.length_append, length_le32]

/-- A frame that fits is read back whole, whatever follows it. -/
theorem readFrame_frame {bytes wire : List UInt8} {limit limit' : Nat} (h : writeFrame bytes limit = .ok wire)
    (hlimit : limit < 2 ^ 32) (hfit : bytes.length ≤ limit') (rest : List UInt8) :
    readFrame (wire ++ rest) limit' = .ok (bytes, rest) := by
  have hlen := fromLe_take_frame h hlimit rest
  have hwire := length_frame h
  obtain ⟨hne, -, rfl⟩ := writeFrame_eq_ok.1 h
  have hpos : bytes.length ≠ 0 := by simpa using hne
  have hdrop : (le32 (UInt32.ofNat bytes.length) ++ bytes ++ rest).drop 4 = bytes ++ rest := by
    rw [List.append_assoc]
    exact List.drop_left' (length_le32 _)
  have hrest : (le32 (UInt32.ofNat bytes.length) ++ bytes ++ rest).drop (4 + bytes.length) = rest :=
    List.drop_left' hwire
  have hlong : ¬ (le32 (UInt32.ofNat bytes.length) ++ bytes ++ rest).length < 4 + bytes.length := by
    rw [List.length_append, hwire]
    omega
  unfold readFrame
  simp only [hlen, hdrop, hrest, List.take_left]
  simp [Except.failIf, show ¬ limit' < bytes.length by omega, hne, pure, Except.pure]

theorem length_of_readFrame {stream : List UInt8} {limit : Nat} {read : List UInt8 × List UInt8}
    (h : readFrame stream limit = .ok read) : 4 ≤ stream.length ∧ 4 + fromLe (stream.take 4) ≤ stream.length := by
  obtain ⟨_, hfour, h⟩ := Except.bind_eq_ok.1 h
  obtain ⟨_, -, h⟩ := Except.bind_eq_ok.1 h
  obtain ⟨_, hlong, -⟩ := Except.bind_eq_ok.1 h
  rw [Except.failIf_eq_ok] at hfour hlong
  omega

/-- A frame that was cut cannot be read. -/
theorem readFrame_cut {bytes wire received : List UInt8} {limit : Nat} (limit' : Nat) (h : writeFrame bytes limit = .ok wire)
    (hlimit : limit < 2 ^ 32) (hcut : received <+: wire) (hne : received ≠ wire) :
    ∃ e, readFrame received limit' = .error e := by
  have hshort : received.length < 4 + bytes.length := by
    rw [← length_frame h]
    exact lt_of_le_of_ne hcut.length_le fun heq => hne (hcut.eq_of_length heq)
  rcases Except.ok_or_error (readFrame received limit') with ⟨read, hread⟩ | herror
  · obtain ⟨hfour, hlong⟩ := length_of_readFrame hread
    have hlen : fromLe (received.take 4) = bytes.length := by
      obtain ⟨rest, rfl⟩ := hcut
      have := fromLe_take_frame h hlimit []
      rwa [List.append_nil, List.take_append_of_le_length hfour] at this
    omega
  · exact herror

theorem readFrame_nil (limit : Nat) : readFrame [] limit = .error .transport := rfl

/-! ### The session -/

namespace SymbolicLayerSession

/-- The position, the pending row and the configuration agree; the cache's contents may differ. -/
structure Same (s s' : SymbolicLayerSession) : Prop where
  position : s'.position = s.position
  prepared : s'.prepared = s.prepared
  context : s'.context = s.context

theorem Same.refl (s : SymbolicLayerSession) : Same s s := ⟨rfl, rfl, rfl⟩

variable {s s' : SymbolicLayerSession} {reserve : Nat → Bool} {p : UInt32} {hidden output : List F64}

/-- A run over the session's layers keeps the position. -/
theorem currentPos_run (s : SymbolicLayerSession) {r : Except (Except.Fault String) (List F64)} {cache : HashConsedKV}
    (h : (s.model.forwardLayerRange reserve hidden p s.layers).run s.cache = (r, cache)) :
    cache.currentPos = s.position := by
  have := (s.model.forwardLayerRange_keeps reserve hidden p s.layers s.cache).currentPos
  rwa [h] at this

theorem prepare_ok (h : (prepare reserve p hidden).run s = (.ok output, s')) :
    s.prepared = false ∧ p = s.position ∧ p < s.context ∧ (output.any fun x => !x.isFinite) = false ∧
      s'.prepared = true ∧ s'.position = s.position ∧ s'.context = s.context := by
  change prepare reserve p hidden s = _ at h
  unfold prepare at h
  split at h
  · cases h
  · rename_i hguard
    push Not at hguard
    split at h
    · cases h
    · rename_i out cache hrun
      split at h
      · cases h
      · rename_i hfinite
        cases h
        exact ⟨by simpa using hguard.1, hguard.2.1, UInt32.not_le.1 hguard.2.2, by simpa using hfinite, rfl, currentPos_run s hrun, rfl⟩

theorem prepare_error {e : Except.Fault String} (h : (prepare reserve p hidden).run s = (.error e, s')) : Same s s' := by
  change prepare reserve p hidden s = _ at h
  unfold prepare at h
  split at h
  · cases h
    exact .refl s
  · split at h
    · rename_i hrun
      cases h
      exact ⟨currentPos_run s hrun, rfl, rfl⟩
    · rename_i hrun
      split at h
      · cases h
        exact ⟨currentPos_run s hrun, rfl, rfl⟩
      · cases h

theorem commit_ok (h : (commit p).run s = (.ok (), s')) :
    s.prepared = true ∧ p = s.position ∧ s' = { s with cache := s.cache.advance, prepared := false } := by
  change commit p s = _ at h
  unfold commit at h
  split at h
  · cases h
  · rename_i hguard
    push Not at hguard
    cases h
    exact ⟨hguard.1, hguard.2, rfl⟩

theorem commit_error {e : Except.Fault String} (h : (commit p).run s = (.error e, s')) : s' = s := by
  change commit p s = _ at h
  unfold commit at h
  split at h <;> cases h
  rfl

theorem abort_ok (h : (abort p).run s = (.ok (), s')) :
    s.prepared = true ∧ p = s.position ∧ s' = { s with prepared := false } := by
  change abort p s = _ at h
  unfold abort at h
  split at h
  · cases h
  · rename_i hguard
    push Not at hguard
    cases h
    exact ⟨hguard.1, hguard.2, rfl⟩

theorem abort_error {e : Except.Fault String} (h : (abort p).run s = (.error e, s')) : s' = s := by
  change abort p s = _ at h
  unfold abort at h
  split at h <;> cases h
  rfl

theorem currentPos_allocate {model : SymbolicCausalModel} {layers : Layers} {context : UInt32} {maxKvBytes : Nat}
    {cache : HashConsedKV} (h : allocate reserve model layers context maxKvBytes = .ok cache) : cache.currentPos = 0 := by
  obtain ⟨_, -, h⟩ := Except.bind_eq_ok.1 h
  obtain ⟨_, -, h⟩ := Except.bind_eq_ok.1 h
  obtain ⟨_, -, h⟩ := Except.bind_eq_ok.1 h
  obtain ⟨_, -, h⟩ := Except.bind_eq_ok.1 h
  obtain ⟨_, -, h⟩ := Except.bind_eq_ok.1 h
  obtain ⟨_, -, h⟩ := Except.bind_eq_ok.1 h
  obtain ⟨_, -, h⟩ := Except.bind_eq_ok.1 h
  obtain ⟨_, -, h⟩ := Except.bind_eq_ok.1 h
  rw [← Except.pure_eq_ok.1 h]

theorem reset_ok (h : (reset reserve).run s = (.ok (), s')) :
    s'.prepared = false ∧ s'.position = 0 ∧ s'.context = s.context := by
  change reset reserve s = _ at h
  unfold reset at h
  split at h
  · cases h
  · rename_i fresh hfresh
    cases h
    exact ⟨rfl, currentPos_allocate hfresh, rfl⟩

theorem reset_error {e : Except.Fault String} (h : (reset reserve).run s = (.error e, s')) : s' = s := by
  change reset reserve s = _ at h
  unfold reset at h
  split at h <;> cases h
  rfl

end SymbolicLayerSession

/-! ### What the server does with a call -/

namespace SymbolicLayerServer
variable {server : SymbolicLayerServer} {reserve : Nat → Bool} {s s' : SymbolicLayerSession}

/-- The answer to a call, without the wire. -/
def serveCall (server : SymbolicLayerServer) (reserve : Nat → Bool) :
    Call → Exec (Except.Fault IoError) SymbolicLayerSession (List UInt8)
  | .prepare position hidden => server.respond (SymbolicLayerSession.prepare reserve position hidden) fun output =>
      0 :: le32 (UInt32.ofNat output.length) ++ output.flatMap le64
  | .commit position => server.respond (SymbolicLayerSession.commit position) fun _ => [0]
  | .abort position => server.respond (SymbolicLayerSession.abort position) fun _ => [0]
  | .reset => server.respond (SymbolicLayerSession.reset reserve) fun _ => [0]
  | .close => pure [0]

/-- The call a request stands for. -/
def decode (server : SymbolicLayerServer) (request : List UInt8) : Except (Except.Fault IoError) Call :=
  match request with
  | [] => .error .panic
  | code :: _ =>
    if code = PREPARE then ((vectors request server.width).mapError .error).map fun v => .prepare v.1 v.2
    else if code = COMMIT ∨ code = ABORT then
      ((positionRequest request).mapError .error).map fun p => if code = COMMIT then .commit p else .abort p
    else if code = RESET ∧ request.length = 1 then .ok .reset
    else if code = CLOSE ∧ request.length = 1 then .ok .close
    else .error (.error (.invalidData "invalid symbolic request"))

/-- The server answers the call it decodes. -/
theorem answer_eq (server : SymbolicLayerServer) (reserve : Nat → Bool) (request : List UInt8) :
    server.answer reserve request = Exec.ofExcept (server.decode request) >>= fun call =>
      server.serveCall reserve call >>= fun response => pure (response, decide (call = .close)) := by
  cases request with
  | nil => rfl
  | cons code rest =>
    unfold answer decode
    simp only
    split
    · rcases vectors (code :: rest) server.width with e | v <;> rfl
    · split
      · rcases positionRequest (code :: rest) with e | p
        · rfl
        · by_cases hcode : code = COMMIT
          · simp only [hcode, if_true]
            rfl
          · simp only [hcode, if_false]
            rfl
      · split
        · rfl
        · split <;> rfl

/-- The server sees exactly the call the client made. -/
theorem decode_request {client : SymbolicLayerClient} {call : Call} {request : List UInt8}
    (hwidth : client.width = server.width) (h : client.request call = .ok request) :
    server.decode request = .ok call := by
  have hsmall : server.width < 2 ^ 32 := by
    have := server.width_fits
    have := server.limits.frameBytes_lt
    omega
  cases call with
  | prepare p hidden =>
    obtain ⟨_, hguard, h⟩ := Except.bind_eq_ok.1 h
    rw [Except.failIf_eq_ok] at hguard
    push Not at hguard
    obtain rfl := Except.pure_eq_ok.1 h
    have hvectors : vectors (PREPARE :: le32 p ++ le32 (UInt32.ofNat hidden.length) ++ hidden.flatMap le64)
        server.width = .ok (p, hidden) := by
      rw [List.append_assoc]
      exact vectors_le64 (hguard.2.2.2.1.trans hwidth) hsmall (by simpa using hguard.2.2.2.2) PREPARE
    change ((vectors _ server.width).mapError Except.Fault.error).map _ = _
    rw [hvectors]
    rfl
  | commit p =>
    obtain ⟨_, -, h⟩ := Except.bind_eq_ok.1 h
    obtain rfl := Except.pure_eq_ok.1 h
    change ((positionRequest (COMMIT :: le32 p)).mapError Except.Fault.error).map _ = _
    rw [positionRequest_le32]
    rfl
  | abort p =>
    obtain ⟨_, -, h⟩ := Except.bind_eq_ok.1 h
    obtain rfl := Except.pure_eq_ok.1 h
    change ((positionRequest (ABORT :: le32 p)).mapError Except.Fault.error).map _ = _
    rw [positionRequest_le32]
    rfl
  | reset =>
    obtain rfl := Except.pure_eq_ok.1 h
    rfl
  | close =>
    obtain rfl := Except.pure_eq_ok.1 h
    rfl

theorem respond_cases {α : Type} {op : Exec (Except.Fault String) SymbolicLayerSession α} {accept : α → List UInt8}
    {r : Except (Except.Fault IoError) (List UInt8)} (h : (server.respond op accept).run s = (r, s')) :
    (∃ a, op.run s = (.ok a, s') ∧ r = .ok (accept a)) ∨
    (∃ e, op.run s = (.error (.error e), s') ∧ r = .ok (reject e server.limits.frameBytes)) ∨
    op.run s = (.error .panic, s') ∧ r = .error .panic := by
  change server.respond op accept s = _ at h
  unfold respond at h
  split at h
  · rename_i hop
    cases h
    exact .inl ⟨_, hop, rfl⟩
  · rename_i hop
    cases h
    exact .inr (.inl ⟨_, hop, rfl⟩)
  · rename_i hop
    cases h
    exact .inr (.inr ⟨hop, rfl⟩)

/-- What a call did to the session, with the response to it. -/
inductive Effect (server : SymbolicLayerServer) (reserve : Nat → Bool) (s : SymbolicLayerSession) :
    Call → List UInt8 → SymbolicLayerSession → Prop
  | rejected {call t} (message : String) (h : s.Same t) :
      Effect server reserve s call (reject message server.limits.frameBytes) t
  | prepared {p hidden output t} (h : (SymbolicLayerSession.prepare reserve p hidden).run s = (.ok output, t)) :
      Effect server reserve s (.prepare p hidden) (0 :: le32 (UInt32.ofNat output.length) ++ output.flatMap le64) t
  | committed {p t} (h : (SymbolicLayerSession.commit p).run s = (.ok (), t)) :
      Effect server reserve s (.commit p) [0] t
  | aborted {p t} (h : (SymbolicLayerSession.abort p).run s = (.ok (), t)) : Effect server reserve s (.abort p) [0] t
  | reset {t} (h : (SymbolicLayerSession.reset reserve).run s = (.ok (), t)) : Effect server reserve s .reset [0] t
  | closed : Effect server reserve s .close [0] s

theorem serveCall_ok {call : Call} {response : List UInt8}
    (h : (server.serveCall reserve call).run s = (.ok response, s')) : Effect server reserve s call response s' := by
  cases call with
  | prepare p hidden =>
    rcases respond_cases h with ⟨output, hop, hr⟩ | ⟨e, hop, hr⟩ | ⟨-, hr⟩
    · obtain rfl := Except.ok.inj hr
      exact .prepared hop
    · obtain rfl := Except.ok.inj hr
      exact .rejected e (SymbolicLayerSession.prepare_error hop)
    · cases hr
  | commit p =>
    rcases respond_cases h with ⟨_, hop, hr⟩ | ⟨e, hop, hr⟩ | ⟨-, hr⟩
    · obtain rfl := Except.ok.inj hr
      exact .committed hop
    · obtain rfl := Except.ok.inj hr
      exact .rejected e (SymbolicLayerSession.commit_error hop ▸ .refl s)
    · cases hr
  | abort p =>
    rcases respond_cases h with ⟨_, hop, hr⟩ | ⟨e, hop, hr⟩ | ⟨-, hr⟩
    · obtain rfl := Except.ok.inj hr
      exact .aborted hop
    · obtain rfl := Except.ok.inj hr
      exact .rejected e (SymbolicLayerSession.abort_error hop ▸ .refl s)
    · cases hr
  | reset =>
    rcases respond_cases h with ⟨_, hop, hr⟩ | ⟨e, hop, hr⟩ | ⟨-, hr⟩
    · obtain rfl := Except.ok.inj hr
      exact .reset hop
    · obtain rfl := Except.ok.inj hr
      exact .rejected e (SymbolicLayerSession.reset_error hop ▸ .refl s)
    · cases hr
  | close =>
    obtain ⟨hr, rfl⟩ := Prod.mk.inj h
    obtain rfl := Except.ok.inj hr
    exact .closed

/-- A connection that ends without a response leaves the session as it was, up to the contents of its cache. -/
theorem serveCall_error {call : Call} {e : Except.Fault IoError}
    (h : (server.serveCall reserve call).run s = (.error e, s')) : s.Same s' := by
  cases call with
  | prepare p hidden =>
    rcases respond_cases h with ⟨_, -, hr⟩ | ⟨_, -, hr⟩ | ⟨hop, -⟩
    · cases hr
    · cases hr
    · exact SymbolicLayerSession.prepare_error hop
  | commit p =>
    rcases respond_cases h with ⟨_, -, hr⟩ | ⟨_, -, hr⟩ | ⟨hop, -⟩
    · cases hr
    · cases hr
    · exact SymbolicLayerSession.commit_error hop ▸ .refl s
  | abort p =>
    rcases respond_cases h with ⟨_, -, hr⟩ | ⟨_, -, hr⟩ | ⟨hop, -⟩
    · cases hr
    · cases hr
    · exact SymbolicLayerSession.abort_error hop ▸ .refl s
  | reset =>
    rcases respond_cases h with ⟨_, -, hr⟩ | ⟨_, -, hr⟩ | ⟨hop, -⟩
    · cases hr
    · cases hr
    · exact SymbolicLayerSession.reset_error hop ▸ .refl s
  | close => cases h

/-- A request that gets a response had the effect of a call. -/
theorem answer_ok {request response : List UInt8} {close : Bool}
    (h : (server.answer reserve request).run s = (.ok (response, close), s')) :
    ∃ call, server.decode request = .ok call ∧ Effect server reserve s call response s' := by
  rw [answer_eq] at h
  obtain ⟨call, t, hrun, h⟩ := Exec.bind_eq_ok.1 h
  obtain ⟨hdecode, rfl⟩ := Prod.mk.inj hrun
  obtain ⟨response', t, hserve, h⟩ := Exec.bind_eq_ok.1 h
  obtain ⟨hpair, rfl⟩ := Prod.mk.inj h
  obtain ⟨rfl, -⟩ := Prod.mk.inj (Except.ok.inj hpair)
  exact ⟨call, hdecode, serveCall_ok hserve⟩

/-- A connection that ends on a request leaves the position and the pending row. -/
theorem answer_error {request : List UInt8} {e : Except.Fault IoError}
    (h : (server.answer reserve request).run s = (.error e, s')) : s.Same s' := by
  rw [answer_eq, Exec.run_bind, Exec.run_ofExcept] at h
  rcases hdecode : server.decode request with e' | call
  · rw [hdecode] at h
    cases h
    exact .refl s
  · rw [hdecode] at h
    change (server.serveCall reserve call >>= _).run s = _ at h
    rw [Exec.run_bind] at h
    split at h
    · cases h
    · rename_i hserve
      cases h
      exact serveCall_error hserve

end SymbolicLayerServer

/-! ### The session's log -/

namespace Event

/-- The event ends what was prepared at `p`. -/
def ends (p : UInt32) : Event → Bool
  | prepared _ => false
  | committed q => decide (q = p)
  | aborted q => decide (q = p)
  | reset => true

end Event

/-- How often `p` was prepared since the last event that ends what was prepared there. -/
def openPrepares (p : UInt32) (log : List Event) : Nat := (log.takeWhile fun e => !e.ends p).count (.prepared p)

theorem openPrepares_prepared (p q : UInt32) (log : List Event) :
    openPrepares p (.prepared q :: log) = openPrepares p log + if q = p then 1 else 0 := by
  have hgoes : (!(Event.prepared q).ends p) = true := rfl
  unfold openPrepares
  rw [List.takeWhile_cons, if_pos hgoes, List.count_cons]
  simp

/-- Every commit confirms exactly one prepared row. -/
def PreparedOnce (log : List Event) : Prop :=
  ∀ later p earlier, log = later ++ .committed p :: earlier → openPrepares p earlier = 1

namespace Call

/-- The event of an accepted call. -/
def event : Call → Option Event
  | prepare p _ => some (.prepared p)
  | commit p => some (.committed p)
  | abort p => some (.aborted p)
  | reset => some .reset
  | close => none

end Call

theorem vectors_position {bytes : List UInt8} {width : Nat} {v : UInt32 × List F64} (h : vectors bytes width = .ok v) :
    v.1 = wordAt bytes 1 := by
  obtain ⟨_, -, h⟩ := Except.bind_eq_ok.1 h
  obtain ⟨p, hp, h⟩ := Except.bind_eq_ok.1 h
  obtain ⟨_, -, hp⟩ := Except.bind_eq_ok.1 hp
  obtain ⟨_, -, h⟩ := Except.bind_eq_ok.1 h
  obtain ⟨_, -, h⟩ := Except.bind_eq_ok.1 h
  obtain ⟨_, -, h⟩ := Except.bind_eq_ok.1 h
  rw [← Except.pure_eq_ok.1 h, ← Except.pure_eq_ok.1 hp]

theorem positionRequest_position {bytes : List UInt8} {p : UInt32} (h : positionRequest bytes = .ok p) :
    p = wordAt bytes 1 := by
  obtain ⟨_, -, h⟩ := Except.bind_eq_ok.1 h
  obtain ⟨_, -, h⟩ := Except.bind_eq_ok.1 h
  exact (Except.pure_eq_ok.1 h).symm

theorem map_mapError_eq_ok {ε ε' α β : Type} {x : Except ε α} {f : ε → ε'} {g : α → β} {b : β} :
    (x.mapError f).map g = .ok b ↔ ∃ a, x = .ok a ∧ g a = b := by
  cases x <;> simp [Except.mapError, Except.map]

/-- The log records the call the server decoded. -/
theorem eventOf_decode {server : SymbolicLayerServer} {request response : List UInt8} {call : Call}
    (h : server.decode request = .ok call) (hresponse : response.head? = some 0) :
    eventOf request response = call.event := by
  cases request with
  | nil => cases h
  | cons code rest =>
    simp only [SymbolicLayerServer.decode] at h
    simp only [eventOf, hresponse, ne_eq, not_true_eq_false, if_false]
    split at h
    · rename_i hcode
      obtain ⟨v, hv, rfl⟩ := map_mapError_eq_ok.1 h
      rw [if_pos hcode, Call.event, vectors_position hv]
    · rename_i hprepare
      rw [if_neg hprepare]
      split at h
      · rename_i hcode
        obtain ⟨p, hp, rfl⟩ := map_mapError_eq_ok.1 h
        rw [← positionRequest_position hp]
        rcases hcode with rfl | rfl <;> rfl
      · rename_i hcode
        push Not at hcode
        rw [if_neg hcode.1, if_neg hcode.2]
        split at h
        · rename_i hreset
          cases h
          rw [if_pos hreset.1]
          rfl
        · split at h
          · rename_i hclose
            cases h
            rw [hclose.1]
            rfl
          · cases h

theorem add_one_le_of_lt {a b : UInt32} (h : a < b) : a + 1 ≤ b := by
  rw [UInt32.le_iff_toNat_le, UInt32.toNat_add]
  rw [UInt32.lt_iff_toNat_lt] at h
  have := b.toNat_lt
  have : (1 : UInt32).toNat = 1 := rfl
  omega

/-- The session's position stays within its context and its log explains its pending row. -/
structure SessionInv (s : SymbolicLayerSession) (log : List Event) : Prop where
  position_le : s.position ≤ s.context
  position_lt : s.prepared = true → s.position < s.context
  once : PreparedOnce log
  opened : ∀ p, openPrepares p log = if s.prepared = true ∧ s.position = p then 1 else 0

namespace SessionInv
variable {s s' : SymbolicLayerSession} {log : List Event}

theorem same (h : SessionInv s log) (hs : s.Same s') : SessionInv s' log := by
  refine ⟨?_, ?_, h.once, fun p => ?_⟩
  · rw [hs.position, hs.context]
    exact h.position_le
  · rw [hs.position, hs.context, hs.prepared]
    exact h.position_lt
  · rw [hs.position, hs.prepared]
    exact h.opened p

theorem openPrepares_of_not_prepared (h : SessionInv s log) (hs : s.prepared = false) (p : UInt32) :
    openPrepares p log = 0 := by
  rw [h.opened, hs]
  simp

theorem once_cons {e : Event} (h : SessionInv s log) (he : ∀ p, e = .committed p → openPrepares p log = 1) :
    PreparedOnce (e :: log) := by
  intro later p earlier heq
  cases later with
  | nil =>
    obtain ⟨rfl, rfl⟩ := List.cons.inj heq
    exact he p rfl
  | cons _ later =>
    obtain ⟨-, heq⟩ := List.cons.inj heq
    exact h.once later p earlier heq

/-- After an event that ends the pending row nothing is prepared. -/
theorem opened_end {e : Event} (h : SessionInv s log) (he : ∀ q, e ≠ .prepared q)
    (hend : ∀ p, e.ends p = false → s.position ≠ p) (p : UInt32) : openPrepares p (e :: log) = 0 := by
  unfold openPrepares
  rw [List.takeWhile_cons]
  cases hp : e.ends p with
  | true => rfl
  | false =>
    have hzero := h.opened p
    rw [if_neg fun hq => hend p hp hq.2] at hzero
    have hne : (e == Event.prepared p) = false := by simpa using he p
    simpa [openPrepares, List.count_cons, hne] using hzero

/-- Every effect of a call on the session is one the log explains. -/
theorem effect {server : SymbolicLayerServer} {reserve : Nat → Bool} {request response : List UInt8} {call : Call}
    (h : SessionInv s log) (hdecode : server.decode request = .ok call)
    (heffect : server.Effect reserve s call response s') :
    SessionInv s' ((eventOf request response).toList ++ log) := by
  cases heffect with
  | rejected message hs =>
    exact h.same hs
  | prepared hrun =>
    rw [eventOf_decode hdecode rfl]
    obtain ⟨hfree, rfl, hlt, -, hprepared, hposition, hcontext⟩ := SymbolicLayerSession.prepare_ok hrun
    refine ⟨by rw [hposition, hcontext]; exact h.position_le, fun _ => by rw [hposition, hcontext]; exact hlt,
      h.once_cons (fun _ hp => nomatch hp), fun p => ?_⟩
    change openPrepares p (.prepared s.position :: log) = _
    rw [openPrepares_prepared, h.openPrepares_of_not_prepared hfree p, hprepared, hposition]
    simp
  | committed hrun =>
    rw [eventOf_decode hdecode rfl]
    obtain ⟨hprepared, rfl, rfl⟩ := SymbolicLayerSession.commit_ok hrun
    have hlt := h.position_lt hprepared
    refine ⟨?_, fun hs => absurd hs Bool.false_ne_true, h.once_cons fun p hp => ?_, fun p => ?_⟩
    · exact add_one_le_of_lt hlt
    · cases hp
      rw [h.opened, if_pos ⟨hprepared, rfl⟩]
    · rw [if_neg fun hs => Bool.false_ne_true hs.1]
      exact h.opened_end (fun _ hq => by cases hq) (fun p hp => by simpa [Event.ends] using hp) p
  | aborted hrun =>
    rw [eventOf_decode hdecode rfl]
    obtain ⟨hprepared, rfl, rfl⟩ := SymbolicLayerSession.abort_ok hrun
    refine ⟨h.position_le, fun hs => absurd hs Bool.false_ne_true, h.once_cons (fun _ hp => nomatch hp), fun p => ?_⟩
    rw [if_neg fun hs => Bool.false_ne_true hs.1]
    exact h.opened_end (fun _ hq => by cases hq) (fun p hp => by simpa [Event.ends] using hp) p
  | reset hrun =>
    rw [eventOf_decode hdecode rfl]
    obtain ⟨hprepared, hposition, hcontext⟩ := SymbolicLayerSession.reset_ok hrun
    refine ⟨?_, fun hs => (by rw [hprepared] at hs; cases hs), h.once_cons (fun _ hp => nomatch hp), fun p => ?_⟩
    · rw [hposition]
      exact UInt32.zero_le
    · rw [if_neg fun hs => by rw [hprepared] at hs; cases hs.1]
      exact h.opened_end (fun _ hq => by cases hq) (fun p hp => by simp [Event.ends] at hp) p
  | closed =>
    rw [eventOf_decode hdecode rfl]
    exact h

end SessionInv

/-! ### The connection -/

namespace Connection

/-- The client's copies are the session's own values. -/
structure Agree (client : SymbolicLayerClient) (session : SymbolicLayerSession) : Prop where
  position : client.position = session.position
  prepared : client.prepared = session.prepared

/-- Where the exchange of a healthy client stands. -/
inductive Stage (s : Connection) : Prop
  | idle (hpending : s.pending = none) (hserver : s.toServer = []) (hclient : s.toClient = [])
      (hagree : Agree s.client s.session)
  | asked {call request wire} (hpending : s.pending = some call) (hrequest : s.client.request call = .ok request)
      (hwire : writeFrame request s.client.limits.frameBytes = .ok wire) (hserver : s.toServer <+: wire)
      (hclient : s.toClient = []) (hagree : Agree s.client s.session)
  | answered {call request response wire before reserve} (hpending : s.pending = some call)
      (hrequest : s.client.request call = .ok request) (hserver : s.toServer = []) (hagree : Agree s.client before)
      (heffect : s.server.Effect reserve before call response s.session)
      (hwire : writeFrame response s.server.limits.frameBytes = .ok wire) (hclient : s.toClient <+: wire)
  | stopped {call} (hpending : s.pending = some call) (hserving : s.serving = false) (hclient : s.toClient = [])

structure Inv (s : Connection) : Prop where
  width : s.client.width = s.server.width
  context : s.session.context = s.client.context
  session : SessionInv s.session s.log
  position_le : s.client.position ≤ s.client.context
  position_lt : s.client.prepared = true → s.client.position < s.client.context
  waiting : s.pending ≠ none → s.client.healthy = true
  stage : s.client.healthy = true → s.Stage

theorem send_cases {client client' : SymbolicLayerClient} {call : Call} {r : Except IoError (List UInt8)}
    (h : client.send call = (r, client')) :
    (∃ e, r = .error e ∧ (client' = client ∨ client' = client.invalidate)) ∨
    ∃ request wire, r = .ok wire ∧ client' = client ∧ client.healthy = true ∧ client.request call = .ok request ∧
      writeFrame request client.limits.frameBytes = .ok wire := by
  unfold SymbolicLayerClient.send at h
  split at h
  · cases h
    exact .inl ⟨_, rfl, .inl rfl⟩
  · rename_i request hrequest
    split at h
    · cases h
      exact .inl ⟨_, rfl, .inl rfl⟩
    · rename_i hhealthy
      split at h
      · cases h
        exact .inl ⟨_, rfl, .inr rfl⟩
      · rename_i wire hwire
        cases h
        exact .inr ⟨request, wire, rfl, rfl, by simpa using hhealthy, hrequest, hwire⟩

theorem send_unhealthy {client : SymbolicLayerClient} (h : client.healthy = false) (call : Call) :
    ∃ e, client.send call = (.error e, client) := by
  unfold SymbolicLayerClient.send
  split
  · exact ⟨_, rfl⟩
  · rw [if_pos (by simp [h])]
    exact ⟨_, rfl⟩

/-- The configuration of a client, and its bounds. -/
structure Within (client client' : SymbolicLayerClient) : Prop where
  width : client'.width = client.width
  context : client'.context = client.context
  limits : client'.limits = client.limits
  position_le : client'.position ≤ client'.context
  position_lt : client'.prepared = true → client'.position < client'.context

theorem within_self {client : SymbolicLayerClient} (hle : client.position ≤ client.context)
    (hlt : client.prepared = true → client.position < client.context) : Within client client := ⟨rfl, rfl, rfl, hle, hlt⟩

theorem Within.invalidate {client client' : SymbolicLayerClient} (h : Within client client') :
    Within client client'.invalidate := ⟨h.width, h.context, h.limits, h.position_le, h.position_lt⟩

theorem request_prepare_lt {client : SymbolicLayerClient} {p : UInt32} {hidden : List F64} {request : List UInt8}
    (h : client.request (.prepare p hidden) = .ok request) : client.position < client.context := by
  obtain ⟨_, hguard, -⟩ := Except.bind_eq_ok.1 h
  rw [Except.failIf_eq_ok] at hguard
  push Not at hguard
  rw [← hguard.2.1]
  exact UInt32.not_le.1 hguard.2.2.1

theorem request_commit_prepared {client : SymbolicLayerClient} {p : UInt32} {request : List UInt8}
    (h : client.request (.commit p) = .ok request) : client.prepared = true := by
  obtain ⟨_, hguard, -⟩ := Except.bind_eq_ok.1 h
  rw [Except.failIf_eq_ok] at hguard
  push Not at hguard
  exact hguard.1

/-- The client follows what its call did to the session, or gives the connection up. -/
theorem finish_effect {client : SymbolicLayerClient} {call : Call} {request response : List UInt8}
    {server : SymbolicLayerServer} {reserve : Nat → Bool} {before after : SymbolicLayerSession}
    (hrequest : client.request call = .ok request) (hle : client.position ≤ client.context)
    (hlt : client.prepared = true → client.position < client.context) (hagree : Agree client before)
    (heffect : server.Effect reserve before call response after) :
    Within client (client.finish call (.ok response)).2 ∧
      ((client.finish call (.ok response)).2.healthy = true → Agree (client.finish call (.ok response)).2 after) := by
  have hself := within_self hle hlt
  cases heffect with
  | rejected message hs =>
    change Within client (client.fail call _).2 ∧ ((client.fail call _).2.healthy = true → Agree (client.fail call _).2 after)
    unfold SymbolicLayerClient.fail
    split
    · exact ⟨hself.invalidate, fun h => absurd h Bool.false_ne_true⟩
    · exact ⟨hself, fun _ => ⟨hagree.position.trans hs.position.symm, hagree.prepared.trans hs.prepared.symm⟩⟩
  | @prepared p hidden output _ hrun =>
    obtain ⟨-, -, -, -, hprepared, hposition, -⟩ := SymbolicLayerSession.prepare_ok hrun
    have hroom := request_prepare_lt hrequest
    change Within client (client.accept _ (.prepare p hidden)).2 ∧
      ((client.accept _ (.prepare p hidden)).2.healthy = true → Agree (client.accept _ (.prepare p hidden)).2 after)
    unfold SymbolicLayerClient.accept
    simp only
    split
    · exact ⟨⟨rfl, rfl, rfl, hle, fun _ => hroom⟩,
        fun _ => ⟨hagree.position.trans hposition.symm, hprepared.symm⟩⟩
    · exact ⟨hself.invalidate, fun h => absurd h Bool.false_ne_true⟩
  | committed hrun =>
    obtain ⟨-, -, rfl⟩ := SymbolicLayerSession.commit_ok hrun
    refine ⟨⟨rfl, rfl, rfl, add_one_le_of_lt (hlt (request_commit_prepared hrequest)), ?_⟩, fun _ => ⟨?_, rfl⟩⟩
    · intro h
      exact absurd h Bool.false_ne_true
    · exact congrArg (· + 1) hagree.position
  | aborted hrun =>
    obtain ⟨-, -, rfl⟩ := SymbolicLayerSession.abort_ok hrun
    exact ⟨⟨rfl, rfl, rfl, hle, fun h => absurd h Bool.false_ne_true⟩, fun _ => ⟨hagree.position, rfl⟩⟩
  | reset hrun =>
    obtain ⟨hprepared, hposition, -⟩ := SymbolicLayerSession.reset_ok hrun
    exact ⟨⟨rfl, rfl, rfl, UInt32.zero_le, fun h => absurd h Bool.false_ne_true⟩,
      fun _ => ⟨hposition.symm, hprepared.symm⟩⟩
  | closed => exact ⟨hself.invalidate, fun h => absurd h Bool.false_ne_true⟩

variable {s s' : Connection}

/-- A healthy client between two calls has nothing in flight and mirrors its session. -/
theorem Inv.idle (h : Inv s) (hidle : s.pending = none) (hhealthy : s.client.healthy = true) :
    s.toServer = [] ∧ s.toClient = [] ∧ Agree s.client s.session := by
  cases h.stage hhealthy with
  | idle _ hserver hclient hagree => exact ⟨hserver, hclient, hagree⟩
  | asked hpending => exact absurd (hidle.symm.trans hpending) (by simp)
  | answered hpending => exact absurd (hidle.symm.trans hpending) (by simp)
  | stopped hpending => exact absurd (hidle.symm.trans hpending) (by simp)

theorem Inv.agree (h : Inv s) (hidle : s.pending = none) (hhealthy : s.client.healthy = true) :
    Agree s.client s.session := (h.idle hidle hhealthy).2.2

theorem inv_issue (h : Inv s) (hidle : s.pending = none) (call : Call) : Inv (s.issue call).2 := by
  unfold issue
  rcases hsend : s.client.send call with ⟨r, client⟩
  rcases send_cases hsend with ⟨e, rfl, rfl | rfl⟩ | ⟨request, wire, rfl, rfl, hhealthy, hrequest, hwire⟩
  · exact h
  · exact ⟨h.width, h.context, h.session, h.position_le, h.position_lt, fun hp => absurd hidle hp,
      fun hh => absurd hh Bool.false_ne_true⟩
  · refine ⟨h.width, h.context, h.session, h.position_le, h.position_lt, fun _ => hhealthy, fun _ => ?_⟩
    obtain ⟨hserver, hclient, hagree⟩ := h.idle hidle hhealthy
    exact .asked rfl hrequest hwire (by simp [hserver]) hclient hagree

/-- The outcomes of one round of the server. -/
inductive Served (s : Connection) (reserve : Nat → Bool) : Connection → Prop
  | unread {e} (hread : readFrame s.toServer s.server.limits.frameBytes = .error e) :
      Served s reserve { s with serving := false }
  | ended {request rest session} (hread : readFrame s.toServer s.server.limits.frameBytes = .ok (request, rest))
      (hsame : s.session.Same session) : Served s reserve { s with session, serving := false, toServer := rest }
  | unsent {request rest call response session}
      (hread : readFrame s.toServer s.server.limits.frameBytes = .ok (request, rest))
      (hdecode : s.server.decode request = .ok call) (heffect : s.server.Effect reserve s.session call response session) :
      Served s reserve { s with session, serving := false, toServer := rest
                                log := (eventOf request response).toList ++ s.log }
  | answered {request rest call response session wire close}
      (hread : readFrame s.toServer s.server.limits.frameBytes = .ok (request, rest))
      (hdecode : s.server.decode request = .ok call) (heffect : s.server.Effect reserve s.session call response session)
      (hwire : writeFrame response s.server.limits.frameBytes = .ok wire) :
      Served s reserve { s with session, serving := !close, toServer := rest, toClient := s.toClient ++ wire
                                log := (eventOf request response).toList ++ s.log }

theorem served (s : Connection) (reserve : Nat → Bool) : Served s reserve (s.serve reserve) := by
  unfold serve
  split
  · rename_i hread
    exact .unread hread
  · rename_i request rest hread
    split
    · rename_i hanswer
      exact .ended hread (SymbolicLayerServer.answer_error hanswer)
    · rename_i hanswer
      obtain ⟨call, hdecode, heffect⟩ := SymbolicLayerServer.answer_ok hanswer
      split
      · exact .unsent hread hdecode heffect
      · rename_i hwire
        exact .answered hread hdecode heffect hwire

/-- What can be read of a frame in flight is the frame itself. -/
theorem readFrame_prefix {bytes wire received read rest : List UInt8} {limit limit' : Nat}
    (h : writeFrame bytes limit = .ok wire) (hlimit : limit < 2 ^ 32) (hcut : received <+: wire)
    (hread : readFrame received limit' = .ok (read, rest)) : read = bytes ∧ rest = [] := by
  by_cases heq : received = wire
  · subst heq
    have hsize : bytes.length ≤ limit' := by
      by_contra hlong
      have hlen := fromLe_take_frame h hlimit []
      rw [List.append_nil] at hlen
      obtain ⟨_, -, hread⟩ := Except.bind_eq_ok.1 hread
      obtain ⟨_, hsize, -⟩ := Except.bind_eq_ok.1 hread
      rw [Except.failIf_eq_ok, hlen] at hsize
      omega
    have := readFrame_frame h hlimit hsize []
    rw [List.append_nil, hread] at this
    exact Prod.mk.inj (Except.ok.inj this)
  · obtain ⟨e, he⟩ := readFrame_cut limit' h hlimit hcut heq
    rw [he] at hread
    cases hread

theorem context_effect {server : SymbolicLayerServer} {reserve : Nat → Bool} {before after : SymbolicLayerSession}
    {call : Call} {response : List UInt8} (h : server.Effect reserve before call response after) :
    after.context = before.context := by
  cases h with
  | rejected _ hs => exact hs.context
  | prepared hrun => exact (SymbolicLayerSession.prepare_ok hrun).2.2.2.2.2.2
  | committed hrun => rw [(SymbolicLayerSession.commit_ok hrun).2.2]
  | aborted hrun => rw [(SymbolicLayerSession.abort_ok hrun).2.2]
  | reset hrun => exact (SymbolicLayerSession.reset_ok hrun).2.2
  | closed => rfl

/-- A request the server can read is the one the client waits for. -/
theorem Stage.of_read (h : Stage s) (hserving : s.serving = true) {request rest : List UInt8}
    (hread : readFrame s.toServer s.server.limits.frameBytes = .ok (request, rest)) :
    ∃ call, s.pending = some call ∧ s.client.request call = .ok request ∧ rest = [] ∧ s.toClient = [] ∧
      Agree s.client s.session := by
  cases h with
  | idle hpending hserver =>
    rw [hserver, readFrame_nil] at hread
    cases hread
  | asked hpending hrequest hwire hserver hclient hagree =>
    obtain ⟨rfl, rfl⟩ := readFrame_prefix hwire s.client.limits.frameBytes_lt hserver hread
    exact ⟨_, hpending, hrequest, rfl, hclient, hagree⟩
  | answered hpending hrequest hserver =>
    rw [hserver, readFrame_nil] at hread
    cases hread
  | stopped hpending hstopped =>
    rw [hserving] at hstopped
    cases hstopped

theorem inv_serve (h : Inv s) (hserving : s.serving = true) (reserve : Nat → Bool) : Inv (s.serve reserve) := by
  generalize hs : s.serve reserve = s'
  have hserved := served s reserve
  rw [hs] at hserved
  cases hserved with
  | unread hread =>
    refine ⟨h.width, h.context, h.session, h.position_le, h.position_lt, h.waiting, fun hhealthy => ?_⟩
    cases h.stage hhealthy with
    | idle hpending hserver hclient hagree => exact .idle hpending hserver hclient hagree
    | asked hpending hrequest hwire hserver hclient hagree => exact .stopped hpending rfl hclient
    | answered hpending hrequest hserver hagree heffect hwire hclient =>
      exact .answered hpending hrequest hserver hagree heffect hwire hclient
    | stopped hpending _ hclient => exact .stopped hpending rfl hclient
  | ended hread hsame =>
    refine ⟨h.width, hsame.context.trans h.context, h.session.same hsame, h.position_le, h.position_lt, h.waiting,
      fun hhealthy => ?_⟩
    obtain ⟨call, hpending, -, -, hclient, -⟩ := (h.stage hhealthy).of_read hserving hread
    exact .stopped hpending rfl hclient
  | unsent hread hdecode heffect =>
    refine ⟨h.width, (context_effect heffect).trans h.context, h.session.effect hdecode heffect, h.position_le,
      h.position_lt, h.waiting, fun hhealthy => ?_⟩
    obtain ⟨call, hpending, -, -, hclient, -⟩ := (h.stage hhealthy).of_read hserving hread
    exact .stopped hpending rfl hclient
  | answered hread hdecode heffect hwire =>
    refine ⟨h.width, (context_effect heffect).trans h.context, h.session.effect hdecode heffect, h.position_le,
      h.position_lt, h.waiting, fun hhealthy => ?_⟩
    obtain ⟨call, hpending, hrequest, rfl, hclient, hagree⟩ := (h.stage hhealthy).of_read hserving hread
    have hcall := SymbolicLayerServer.decode_request h.width hrequest
    obtain rfl := Except.ok.inj (hdecode.symm.trans hcall)
    exact .answered hpending hrequest rfl hagree heffect hwire (by simp [hclient])

/-- A client that cannot go on. -/
theorem inv_invalidate (h : Inv s) : Inv { s with client := s.client.invalidate, pending := none } :=
  ⟨h.width, h.context, h.session, h.position_le, h.position_lt, fun hp => absurd rfl hp,
    fun hh => absurd hh Bool.false_ne_true⟩

theorem inv_receive (h : Inv s) {call : Call} (hpending : s.pending = some call) : Inv (s.receive call).2 := by
  unfold receive
  rcases hread : readFrame s.toClient s.client.limits.frameBytes with e | ⟨response, rest⟩
  · exact inv_invalidate h
  · have hhealthy : s.client.healthy = true := h.waiting (by simp [hpending])
    cases h.stage hhealthy with
    | idle hnone => exact absurd (hnone.symm.trans hpending) (by simp)
    | asked _ _ _ _ hclient =>
      rw [hclient, readFrame_nil] at hread
      cases hread
    | stopped _ _ hclient =>
      rw [hclient, readFrame_nil] at hread
      cases hread
    | answered hcall hrequest hserver hagree heffect hwire hclient =>
      obtain rfl := Option.some.inj (hcall.symm.trans hpending)
      obtain ⟨rfl, rfl⟩ := readFrame_prefix hwire s.server.limits.frameBytes_lt hclient hread
      obtain ⟨hwithin, hagree'⟩ := finish_effect hrequest h.position_le h.position_lt hagree heffect
      refine ⟨hwithin.width.trans h.width, h.context.trans hwithin.context.symm, h.session, hwithin.position_le,
        hwithin.position_lt, fun hp => absurd rfl hp, fun hh => .idle rfl hserver rfl (hagree' hh)⟩

theorem inv_cutRequest (h : Inv s) (n : Nat) : Inv { s with toServer := s.toServer.take n } := by
  refine ⟨h.width, h.context, h.session, h.position_le, h.position_lt, h.waiting, fun hhealthy => ?_⟩
  cases h.stage hhealthy with
  | idle hpending hserver hclient hagree => exact .idle hpending (by simp [hserver]) hclient hagree
  | asked hpending hrequest hwire hserver hclient hagree =>
    exact .asked hpending hrequest hwire ((List.take_prefix n _).trans hserver) hclient hagree
  | answered hpending hrequest hserver hagree heffect hwire hclient =>
    exact .answered hpending hrequest (by simp [hserver]) hagree heffect hwire hclient
  | stopped hpending hserving hclient => exact .stopped hpending hserving hclient

theorem inv_cutResponse (h : Inv s) (n : Nat) : Inv { s with toClient := s.toClient.take n } := by
  refine ⟨h.width, h.context, h.session, h.position_le, h.position_lt, h.waiting, fun hhealthy => ?_⟩
  cases h.stage hhealthy with
  | idle hpending hserver hclient hagree => exact .idle hpending hserver (by simp [hclient]) hagree
  | asked hpending hrequest hwire hserver hclient hagree =>
    exact .asked hpending hrequest hwire hserver (by simp [hclient]) hagree
  | answered hpending hrequest hserver hagree heffect hwire hclient =>
    exact .answered hpending hrequest hserver hagree heffect hwire ((List.take_prefix n _).trans hclient)
  | stopped hpending hserving hclient => exact .stopped hpending hserving (by simp [hclient])

theorem inv_stop (h : Inv s) : Inv { s with serving := false } := by
  refine ⟨h.width, h.context, h.session, h.position_le, h.position_lt, h.waiting, fun hhealthy => ?_⟩
  cases h.stage hhealthy with
  | idle hpending hserver hclient hagree => exact .idle hpending hserver hclient hagree
  | asked hpending hrequest hwire hserver hclient hagree =>
    exact .asked hpending hrequest hwire hserver hclient hagree
  | answered hpending hrequest hserver hagree heffect hwire hclient =>
    exact .answered hpending hrequest hserver hagree heffect hwire hclient
  | stopped hpending _ hclient => exact .stopped hpending rfl hclient

/-- Every action keeps the invariant. -/
theorem inv_step (h : Inv s) {a : Action} (hstep : s.step a = some s') : Inv s' := by
  cases a with
  | call c =>
    simp only [step, Option.ite_none_right_eq_some, Option.some.injEq] at hstep
    obtain ⟨hidle, rfl⟩ := hstep
    exact inv_issue h hidle c
  | serve reserve =>
    simp only [step, Option.ite_none_right_eq_some, Option.some.injEq] at hstep
    obtain ⟨hserving, rfl⟩ := hstep
    exact inv_serve h hserving reserve
  | receive =>
    obtain ⟨call, hpending, rfl⟩ := Option.map_eq_some_iff.1 hstep
    exact inv_receive h hpending
  | expire =>
    obtain ⟨call, -, rfl⟩ := Option.map_eq_some_iff.1 hstep
    exact inv_invalidate h
  | cutRequest n =>
    obtain rfl := Option.some.inj hstep
    exact inv_cutRequest h n
  | cutResponse n =>
    obtain rfl := Option.some.inj hstep
    exact inv_cutResponse h n
  | stop =>
    obtain rfl := Option.some.inj hstep
    exact inv_stop h

/-- Every run keeps the invariant. -/
theorem inv_reaches (h : Inv s) (hrun : Reaches s s') : Inv s' := by
  induction hrun with
  | refl => exact h
  | tail _ hstep ih => exact inv_step ih hstep

theorem accept_unhealthy {client : SymbolicLayerClient} (h : client.healthy = false) (payload : List UInt8)
    (call : Call) : (client.accept payload call).2.healthy = false := by
  unfold SymbolicLayerClient.accept
  split
  · split
    · exact h
    · rfl
  all_goals
    split
    · rfl
    · first
      | exact h
      | rfl

theorem finish_unhealthy {client : SymbolicLayerClient} (h : client.healthy = false) (call : Call)
    (r : Except IoError (List UInt8)) : (client.finish call r).2.healthy = false := by
  rcases r with e | _ | ⟨status, payload⟩
  · rfl
  · rfl
  · unfold SymbolicLayerClient.finish SymbolicLayerClient.fail
    simp only
    split
    · exact accept_unhealthy h payload call
    · split
      · split
        · rfl
        · exact h
      · rfl

/-- A client that was given up stays so and sends nothing, whatever happens. -/
theorem silent_step {a : Action} (h : s.client.healthy = false) (hstep : s.step a = some s') :
    s'.client.healthy = false ∧ s'.sent = s.sent := by
  cases a with
  | call c =>
    simp only [step, Option.ite_none_right_eq_some, Option.some.injEq] at hstep
    obtain ⟨-, rfl⟩ := hstep
    obtain ⟨e, he⟩ := send_unhealthy h c
    unfold issue
    rw [he]
    exact ⟨h, rfl⟩
  | serve reserve =>
    simp only [step, Option.ite_none_right_eq_some, Option.some.injEq] at hstep
    obtain ⟨-, rfl⟩ := hstep
    generalize hs : s.serve reserve = s'
    have hserved := served s reserve
    rw [hs] at hserved
    cases hserved <;> exact ⟨h, rfl⟩
  | receive =>
    obtain ⟨call, -, rfl⟩ := Option.map_eq_some_iff.1 hstep
    unfold receive
    split
    · exact ⟨rfl, rfl⟩
    · exact ⟨finish_unhealthy h call _, rfl⟩
  | expire =>
    obtain ⟨call, -, rfl⟩ := Option.map_eq_some_iff.1 hstep
    exact ⟨rfl, rfl⟩
  | cutRequest n =>
    obtain rfl := Option.some.inj hstep
    exact ⟨h, rfl⟩
  | cutResponse n =>
    obtain rfl := Option.some.inj hstep
    exact ⟨h, rfl⟩
  | stop =>
    obtain rfl := Option.some.inj hstep
    exact ⟨h, rfl⟩

theorem silent_reaches (h : s.client.healthy = false) (hrun : Reaches s s') :
    s'.client.healthy = false ∧ s'.sent = s.sent := by
  induction hrun with
  | refl => exact ⟨h, rfl⟩
  | tail _ hstep ih =>
    obtain ⟨hhealthy, hsent⟩ := silent_step ih.1 hstep
    exact ⟨hhealthy, hsent.trans ih.2⟩

/-! ### The handshake -/

section
variable {server : SymbolicLayerServer} {opened : Except String SymbolicCausalModel} {kept : Bool} {fate : Fate}
  {identity : List UInt8} {layers : Layers} {context : UInt32} {limits : SymbolicTransportLimits}

/-- A new session is at the start of its context. -/
theorem new_session {reserve : Nat → Bool} {model : SymbolicCausalModel} {maxKvBytes : Nat} {session : SymbolicLayerSession}
    (h : SymbolicLayerSession.new reserve model layers context maxKvBytes = .ok session) :
    session.position = 0 ∧ session.prepared = false ∧ session.context = context := by
  obtain ⟨_, -, h⟩ := Except.bind_eq_ok.1 h
  obtain ⟨cache, hcache, h⟩ := Except.bind_eq_ok.1 h
  obtain rfl := Except.pure_eq_ok.1 h
  exact ⟨SymbolicLayerSession.currentPos_allocate hcache, rfl, rfl⟩

/-- A session is only created together with the response that accepts the connection. -/
theorem admit_session {reserve : Nat → Bool} {request answer : List UInt8} {session : SymbolicLayerSession}
    (h : server.openSession reserve opened kept request = .ok (answer, some session)) :
    answer = 0 :: le32 (UInt32.ofNat server.width) ∧ session.position = 0 ∧ session.prepared = false ∧
      session.context = wordAt request 5 := by
  simp only [SymbolicLayerServer.openSession] at h
  split at h
  · cases h
  · split at h
    · cases h
    · split at h
      · cases h
      · obtain ⟨_, -, h⟩ := Except.bind_eq_ok.1 h
        split at h
        · cases h
        · rename_i hnew
          cases h
          obtain ⟨hposition, hprepared, hcontext⟩ := new_session hnew
          exact ⟨rfl, hposition, hprepared, hcontext⟩

theorem wordAt_open {rest : List UInt8} (context : UInt32) :
    wordAt (OPEN :: le32 VERSION ++ le32 context ++ rest) 5 = context := by
  rw [List.append_assoc]
  exact wordAt_append _ _ context (by simp)

theorem establish_ok {session : Option SymbolicLayerSession} {sent response : List UInt8} {start : Connection}
    (h : establish server session sent response identity layers context limits = .ok start) :
    ∃ payload session' width, response = 0 :: payload ∧ session = some session' ∧ u32At payload 0 = .ok width ∧
      start = { server, session := session', serving := true, pending := none, toServer := [], toClient := [], log := [],
                sent := [sent],
                client := { limits, width := width.toNat, healthy := true, identity, layers, context, position := 0,
                            prepared := false } } := by
  unfold establish at h
  split at h
  · rename_i payload session'
    obtain ⟨_, -, h⟩ := Except.bind_eq_ok.1 h
    obtain ⟨width, hwidth, h⟩ := Except.bind_eq_ok.1 h
    obtain ⟨_, -, h⟩ := Except.bind_eq_ok.1 h
    exact ⟨payload, session', width, rfl, rfl, hwidth, (Except.pure_eq_ok.1 h).symm⟩
  · cases h
  · cases h

theorem inv_connect {start : Connection}
    (h : connect server opened kept fate identity layers context limits = .ok start) : Inv start := by
  obtain ⟨_, -, h⟩ := Except.bind_eq_ok.1 h
  obtain ⟨bytes, hbytes, h⟩ := Except.bind_eq_ok.1 h
  obtain ⟨received, hreceived, h⟩ := Except.bind_eq_ok.1 h
  obtain ⟨⟨answer, session⟩, hadmit, h⟩ := Except.bind_eq_ok.1 h
  obtain ⟨wire, hwire, h⟩ := Except.bind_eq_ok.1 h
  obtain ⟨response, hresponse, h⟩ := Except.bind_eq_ok.1 h
  obtain ⟨hrequest, -⟩ := readFrame_prefix hbytes limits.frameBytes_lt (List.take_prefix _ _) hreceived
  obtain ⟨hanswer, -⟩ := readFrame_prefix hwire server.limits.frameBytes_lt (List.take_prefix _ _) hresponse
  obtain ⟨payload, session', width, hpayload, rfl, hwidth, rfl⟩ := establish_ok h
  obtain ⟨hadmitted, hposition, hprepared, hcontext⟩ := admit_session hadmit
  have hsmall : server.width < 2 ^ 32 := by
    have := server.width_fits
    have := server.limits.frameBytes_lt
    omega
  have hword : payload = le32 (UInt32.ofNat server.width) :=
    (List.cons.inj (hpayload.symm.trans (hanswer.trans hadmitted))).2
  have hwidth' : width = UInt32.ofNat server.width := by
    obtain ⟨_, -, hwidth⟩ := Except.bind_eq_ok.1 hwidth
    rw [← Except.pure_eq_ok.1 hwidth, hword]
    simpa using wordAt_append [] [] (UInt32.ofNat server.width) (n := 0) rfl
  refine ⟨?_, ?_, ⟨?_, ?_, ?_, ?_⟩, UInt32.zero_le, fun hp => absurd hp Bool.false_ne_true, fun hp => absurd rfl hp,
    fun _ => .idle rfl rfl rfl ⟨hposition.symm, hprepared.symm⟩⟩
  · change width.toNat = server.width
    rw [hwidth', UInt32.toNat_ofNat', Nat.mod_eq_of_lt hsmall]
  · change session'.context = context
    rw [hcontext, hrequest, List.append_assoc, List.append_assoc]
    exact wordAt_open context
  · rw [hposition]
    exact UInt32.zero_le
  · intro hp
    rw [hprepared] at hp
    cases hp
  · intro later p earlier heq
    cases later <;> cases heq
  · intro p
    rw [hprepared]
    rfl

/-- In every state a connection can reach, whatever is lost or cut: a healthy client between two calls has the
position and the pending row of its session, neither leaves the context, each commit confirmed a row prepared once
since the last abort, commit or reset, and a client that was given up never sends again. -/
theorem session_agreement {start s : Connection}
    (hconnect : connect server opened kept fate identity layers context limits = .ok start) (hrun : Reaches start s) :
    (s.client.healthy = true → s.pending = none →
      s.client.position = s.session.position ∧ s.client.prepared = s.session.prepared) ∧
    s.client.position ≤ s.client.context ∧ s.session.position ≤ s.client.context ∧ PreparedOnce s.log ∧
    (s.client.healthy = false → ∀ s', Reaches s s' → s'.client.healthy = false ∧ s'.sent = s.sent) := by
  have hinv := inv_reaches (inv_connect hconnect) hrun
  refine ⟨fun hhealthy hpending => ?_, hinv.position_le, hinv.context ▸ hinv.session.position_le, hinv.session.once,
    fun hhealthy s' hrun' => silent_reaches hhealthy hrun'⟩
  have hagree := hinv.agree hpending hhealthy
  exact ⟨hagree.position, hagree.prepared⟩

end

def play (s : Connection) (actions : List Action) : Option Connection := actions.foldlM step s

theorem reaches_of_play {actions : List Action} (h : s.play actions = some s') : Reaches s s' := by
  suffices ∀ actions t, Reaches s t → t.play actions = some s' → Reaches s s' from this actions s .refl h
  intro actions
  induction actions with
  | nil =>
    intro t ht h
    obtain rfl := Option.some.inj h
    exact ht
  | cons a actions ih =>
    intro t ht h
    unfold play at h
    rw [List.foldlM_cons] at h
    obtain ⟨u, hstep, h⟩ := Option.bind_eq_some_iff.1 h
    exact ih u (ht.tail hstep) h

/-- Every byte arrives and every allocation succeeds. -/
def Fate.whole : Fate := ⟨2 ^ 32, 2 ^ 32, fun _ => true⟩

end Connection

/-- A host whose every number is zero. -/
def zeroHost : Host where
  widen _ := ⟨0⟩
  narrow _ := ⟨0⟩
  rotation _ _ _ _ := (⟨0⟩, ⟨0⟩)
  attentionScale _ := ⟨0⟩
  maxAbs _ := ⟨0⟩
  display _ := "0"

/-- One layer of width one, whose kernels keep their inputs but for a zero in front. -/
def tinyModel : SymbolicCausalModel where
  host := zeroHost
  shard := none
  compiler := {
    config := { nLayers := 1, nEmbd := 1, nHeads := 1, contextLength := 4 }
    headDim := 2
    nKvHeads := 1
    ropeFreqBase := ⟨0⟩
    rmsNormEps := ⟨0⟩
    vocab := 1
    getEmbedding := fun _ => .ok [⟨0⟩]
    tensorDims := fun
      | .block _ .attnQ | .block _ .attnK | .block _ .attnV => some (1, 2)
      | .block _ .attnOutput => some (2, 1)
      | _ => some (1, 1)
    rows := fun _ => .ok fun _ => .ok []
    weightOffsets := fun _ => some 0
    weightPool := [⟨0⟩]
    nHeads_pos := by decide
    nKvHeads_dvd := by decide }
  kernels _ _ := .ok fun inputs _ => .ok ⟨⟨0⟩ :: inputs.tail, by simp⟩
  compiledContext := none
  profile := ""
  rmsBounds := none
  boundedProfile := none

def tinyLimits : SymbolicTransportLimits := ⟨81, 4, 1000, by decide, by decide, by decide⟩

def tinyServer : SymbolicLayerServer := ⟨List.replicate 64 0x61, ⟨0, 1⟩, 1, tinyLimits, by decide⟩

/-- A client connected to the tiny server. -/
def tinyConnect : Except IoError Connection :=
  Connection.connect tinyServer (.ok tinyModel) true .whole (List.replicate 64 0x61) ⟨0, 1⟩ 4 tinyLimits

/-- The client prepares, resets, prepares again and commits. -/
def tinyRun : Option Connection := tinyConnect.toOption.bind fun s => s.play
  [.call (.prepare 0 [⟨0⟩]), .serve fun _ => true, .receive, .call .reset, .serve fun _ => true, .receive,
   .call (.prepare 0 [⟨0⟩]), .serve fun _ => true, .receive, .call (.commit 0), .serve fun _ => true, .receive]

theorem tinyRun_reaches {s : Connection} (h : tinyRun = some s) :
    ∃ start, tinyConnect = .ok start ∧ Connection.Reaches start s := by
  obtain ⟨start, hstart, hrun⟩ := Option.bind_eq_some_iff.1 h
  rcases hconnect : tinyConnect with e | start'
  · rw [hconnect] at hstart
    cases hstart
  · rw [hconnect] at hstart
    obtain rfl := Option.some.inj hstart
    exact ⟨_, rfl, Connection.reaches_of_play hrun⟩

theorem session_agreement_tiny : ∃ start s, tinyConnect = .ok start ∧ Connection.Reaches start s ∧
    s.client.healthy = true ∧ s.pending = none ∧ s.client.position = 1 ∧ s.session.position = 1 := by
  have hview : tinyRun.map (fun s => (s.client.healthy, s.pending, s.client.position)) = some (true, none, 1) := by
    decide +kernel
  obtain ⟨s, hs, hview⟩ := Option.map_eq_some_iff.1 hview
  obtain ⟨hhealthy, hview⟩ := Prod.mk.inj hview
  obtain ⟨hpending, hposition⟩ := Prod.mk.inj hview
  obtain ⟨start, hstart, hrun⟩ := tinyRun_reaches hs
  have hagree := (Connection.session_agreement hstart hrun).1 hhealthy hpending
  exact ⟨start, s, hstart, hrun, hhealthy, hpending, hposition, hagree.1 ▸ hposition⟩

/-- How often `p` was prepared since it was last aborted or committed, across resets. -/
def preparesAcrossResets (p : UInt32) (log : List Event) : Nat :=
  (log.takeWhile fun e => decide (e ≠ .committed p ∧ e ≠ .aborted p)).count (.prepared p)

/-- A reset drops a prepared row that was neither aborted nor committed, so its position is prepared twice. -/
theorem reset_prepares_twice : ∃ start s later p earlier, tinyConnect = .ok start ∧ Connection.Reaches start s ∧
    s.log = later ++ .committed p :: earlier ∧ preparesAcrossResets p earlier = 2 := by
  have hview : tinyRun.map (·.log) = some [.committed 0, .prepared 0, .reset, .prepared 0] := by decide +kernel
  obtain ⟨s, hs, hlog⟩ := Option.map_eq_some_iff.1 hview
  obtain ⟨start, hstart, hrun⟩ := tinyRun_reaches hs
  exact ⟨start, s, [], 0, _, hstart, hrun, hlog, by decide⟩

end Symbolic
end BmlSys
