import BmlSys.Inference.Model

/-!
# Sessions beside a fresh session

The rows of a buffer are in the order of their positions, so the committed rows are a prefix of it. A token reads of
the cache only the rows up to its position, and at its position only the row it has just written; rows left by a failed
or dropped token are never read. So a session that has committed `tokens` since its last reset returns what a fresh
session fed with `tokens` returns.
-/

namespace BmlSys
namespace Inference

open Except (Refines)
open Symbolic (F32 sliceOf orPanic returned)

/-! ### Allocations -/

section
variable {m : Model} {reserve : Nat → Bool}

theorem refines_alloc {ε : Type} {n : Nat} {e : ε} :
    Refines (Except.failIf (reserve n = false) e) (Except.failIf ((fun _ => true) n = false) e) := by
  intro u _
  rfl

theorem refines_decodeRow (tensor : Tensor) (row : Nat) :
    Refines (decodeRow reserve tensor row) (decodeRow (fun _ => true) tensor row) :=
  (Refines.refl _).bind fun _ => refines_alloc.bind fun _ => .refl _

namespace Model

theorem refines_project (tensor : Tensor) (input : List F32) :
    Refines (m.project reserve tensor input) (m.project (fun _ => true) tensor input) := by
  refine (Refines.refl _).bind fun _ => refines_alloc.bind fun _ => .bind (.mapM fun row _ => ?_) fun _ => .refl _
  split
  · exact .refl _
  · exact (refines_decodeRow tensor row).bind fun _ => .refl _

theorem refines_normalize (tensor : Tensor) (input : List F32) :
    Refines (m.normalize reserve tensor input) (m.normalize (fun _ => true) tensor input) :=
  (refines_decodeRow tensor 0).bind fun _ => refines_alloc.bind fun _ => .refl _

theorem refines_embedToken (token : UInt32) :
    Refines (m.embedToken reserve token) (m.embedToken (fun _ => true) token) :=
  (Refines.refl _).bind fun _ => refines_decodeRow m.embedding token.toNat

theorem refines_finalLogits (hidden : List F32) :
    Refines (m.finalLogits reserve hidden) (m.finalLogits (fun _ => true) hidden) :=
  (Refines.refl _).bind fun _ => (Refines.refl _).bind fun _ => (refines_normalize _ _).bind fun _ => refines_project _ _

theorem refines_projections (position : Nat) (layer : Layer) (hidden : List F32) :
    Refines (m.projections reserve position layer hidden) (m.projections (fun _ => true) position layer hidden) :=
  (refines_normalize _ _).bind fun _ => (refines_project _ _).bind fun _ => (refines_project _ _).bind fun _ =>
    (refines_project _ _).bind fun _ => .refl _

theorem refines_feedForward (layer : Layer) (hidden attended : List F32) :
    Refines (m.feedForward reserve layer hidden attended) (m.feedForward (fun _ => true) layer hidden attended) :=
  (refines_project _ _).bind fun _ => (Refines.refl _).bind fun _ => (refines_normalize _ _).bind fun _ =>
    (refines_project _ _).bind fun _ => (refines_project _ _).bind fun _ => (Refines.refl _).bind fun _ =>
      (refines_project _ _).bind fun _ => .refl _

theorem refines_attend (position : Nat) (query keys values : List F32) :
    Refines (m.attend reserve position query keys values) (m.attend (fun _ => true) position query keys values) := by
  refine refines_alloc.bind fun _ => .bind (.mapM fun head _ => ?_) fun _ => .refl _
  exact (Refines.refl _).bind fun _ => refines_alloc.bind fun _ => .refl _

end Model

end

/-! ### What attention reads -/

theorem sliceOf_take {α : Type} {xs : List α} {start stop n : Nat} (h : stop ≤ n) :
    sliceOf (xs.take n) start stop = sliceOf xs start stop := by
  unfold sliceOf
  rw [List.length_take]
  by_cases hbounds : start ≤ stop ∧ stop ≤ xs.length
  · rw [if_pos hbounds, if_pos ⟨hbounds.1, by omega⟩, List.drop_take, List.take_take]
    congr 2
    omega
  · rw [if_neg hbounds, if_neg (by omega)]

namespace Model
variable {m : Model}

/-- The key head of a head is one of the row. -/
theorem kvHead_lt {head : Nat} (h : head < m.config.headCount) :
    head / (m.config.headCount / m.config.headCountKv) < m.config.headCountKv := by
  have hpos : 0 < m.config.headCount / m.config.headCountKv :=
    Nat.div_pos (Nat.le_of_dvd m.config.headCount_pos m.config.headCountKv_dvd) m.config.headCountKv_pos
  rw [Nat.div_lt_iff_lt_mul hpos, Nat.mul_div_cancel' m.config.headCountKv_dvd]
  exact h

/-- The values of a key head at a position lie inside the row of that position. -/
theorem cell_le {head position pos : Nat} (h : head < m.config.headCount) (hpos : pos < position + 1) :
    pos * m.config.kvWidth + head / (m.config.headCount / m.config.headCountKv) * m.config.headDimension +
      m.config.headDimension ≤ (position + 1) * m.config.kvWidth := by
  have hhead := kvHead_lt h
  generalize head / (m.config.headCount / m.config.headCountKv) = kvHead at hhead
  have hrow : kvHead * m.config.headDimension + m.config.headDimension ≤ m.config.kvWidth :=
    calc kvHead * m.config.headDimension + m.config.headDimension = (kvHead + 1) * m.config.headDimension := by ring
      _ ≤ m.config.headCountKv * m.config.headDimension := Nat.mul_le_mul_right _ hhead
      _ = m.config.kvWidth := Nat.mul_comm _ _
  calc _ ≤ pos * m.config.kvWidth + m.config.kvWidth := by omega
    _ = (pos + 1) * m.config.kvWidth := by ring
    _ ≤ (position + 1) * m.config.kvWidth := Nat.mul_le_mul_right _ hpos

/-- Attention reads the rows up to its position. -/
theorem attend_take (reserve : Nat → Bool) (position : Nat) (query keys values : List F32) :
    m.attend reserve position query (keys.take ((position + 1) * m.config.kvWidth))
      (values.take ((position + 1) * m.config.kvWidth)) = m.attend reserve position query keys values := by
  have hhead : ∀ head ∈ List.range m.config.headCount,
      m.attentionHead reserve position query (keys.take ((position + 1) * m.config.kvWidth))
        (values.take ((position + 1) * m.config.kvWidth)) head = m.attentionHead reserve position query keys values head := by
    intro head hmem
    have hlt := List.mem_range.1 hmem
    unfold attentionHead
    refine bind_congr fun q => bind_congr fun _ => ?_
    rw [Except.mapM_congr fun pos hpos => by rw [sliceOf_take (cell_le hlt (List.mem_range.1 hpos))]]
    refine bind_congr fun ks => Except.mapM_congr fun dimension hdimension => ?_
    rw [Except.mapM_congr fun pos hpos => ?_]
    have hcell := cell_le hlt (List.mem_range.1 hpos)
    have hdim := List.mem_range.1 hdimension
    rw [List.getElem?_take_of_lt (by omega)]
  unfold attend
  rw [Except.mapM_congr hhead]

end Model

/-! ### Two sessions with the same rows -/

/-- The first `n` cells of the buffers of a layer agree. -/
def SameCells (layer n : Nat) (s f : Session) : Prop :=
  (s.keys[layer]?).map (List.take n) = (f.keys[layer]?).map (List.take n) ∧
    (s.values[layer]?).map (List.take n) = (f.values[layer]?).map (List.take n)

namespace SameCells
variable {layer n : Nat} {s f g : Session}

theorem refl (layer n : Nat) (s : Session) : SameCells layer n s s := ⟨rfl, rfl⟩

theorem trans (h : SameCells layer n s f) (h' : SameCells layer n f g) : SameCells layer n s g :=
  ⟨h.1.trans h'.1, h.2.trans h'.2⟩

theorem symm (h : SameCells layer n s f) : SameCells layer n f s := ⟨h.1.symm, h.2.symm⟩

theorem mono {n' : Nat} (h : SameCells layer n' s f) (hle : n ≤ n') : SameCells layer n s f := by
  have htake : ∀ o : Option (List F32), (o.map (List.take n')).map (List.take n) = o.map (List.take n) := by
    intro o
    rw [Option.map_map]
    congr 1
    funext b
    rw [Function.comp_apply, List.take_take, Nat.min_eq_left hle]
  have hkeys := congrArg (Option.map (List.take n)) h.1
  have hvalues := congrArg (Option.map (List.take n)) h.2
  rw [htake, htake] at hkeys hvalues
  exact ⟨hkeys, hvalues⟩

end SameCells

/-- A buffer for each layer, with a row for each position of the context. -/
structure Session.Laid (s : Session) : Prop where
  keys : s.keys.length = s.model.config.blockCount
  values : s.values.length = s.model.config.blockCount
  keySize : ∀ b ∈ s.keys, b.length = s.context * s.model.config.kvWidth
  valueSize : ∀ b ∈ s.values, b.length = s.context * s.model.config.kvWidth

/-- Whatever a token does before it is committed: the rows below the position stay. -/
structure Session.Uncommitted (s s' : Session) : Prop where
  model : s'.model = s.model
  position : s'.position = s.position
  context : s'.context = s.context
  laid : s.Laid → s'.Laid
  cells : ∀ layer, SameCells layer (s.position * s.model.config.kvWidth) s s'

namespace Session.Uncommitted
variable {s s' s'' : Session}

theorem refl (s : Session) : Uncommitted s s := ⟨rfl, rfl, rfl, id, fun layer => .refl layer _ s⟩

theorem trans (h : Uncommitted s s') (h' : Uncommitted s' s'') : Uncommitted s s'' := by
  refine ⟨h'.model.trans h.model, h'.position.trans h.position, h'.context.trans h.context,
    fun hs => h'.laid (h.laid hs), fun layer => (h.cells layer).trans ?_⟩
  have hcells := h'.cells layer
  rwa [h.position, h.model] at hcells

end Session.Uncommitted

section
variable {buffers buffers' : List (List F32)} {layer start len : Nat} {data : List F32}

theorem copyRow_eq_some (h : copyRow buffers layer start len data = some buffers') :
    ∃ buffer, buffers[layer]? = some buffer ∧ start + len ≤ buffer.length ∧ data.length = len ∧
      buffers' = buffers.set layer (buffer.take start ++ data ++ buffer.drop (start + len)) := by
  obtain ⟨buffer, hbuffer, h⟩ := Option.bind_eq_some_iff.1 h
  obtain ⟨buffer', hcopy, h⟩ := Option.bind_eq_some_iff.1 h
  unfold copyFromSlice at hcopy
  split at hcopy
  · rename_i hbounds
    obtain rfl := Option.some.inj hcopy
    exact ⟨buffer, hbuffer, hbounds.1, hbounds.2, (Option.some.inj h).symm⟩
  · cases hcopy

theorem copyRow_of_le {buffer : List F32} (hbuffer : buffers[layer]? = some buffer) (hstart : start + len ≤ buffer.length)
    (hdata : data.length = len) :
    copyRow buffers layer start len data = some (buffers.set layer (buffer.take start ++ data ++ buffer.drop (start + len))) := by
  simp [copyRow, hbuffer, copyFromSlice, hstart, hdata]

theorem length_copied {buffer : List F32} (hstart : start + len ≤ buffer.length) (hdata : data.length = len) :
    (buffer.take start ++ data ++ buffer.drop (start + len)).length = buffer.length := by
  simp only [List.length_append, List.length_take, List.length_drop]
  omega

/-- Copying a row keeps the sizes of the buffers. -/
theorem sizes_copyRow (h : copyRow buffers layer start len data = some buffers') {n : Nat}
    (hsize : ∀ b ∈ buffers, b.length = n) : buffers'.length = buffers.length ∧ ∀ b ∈ buffers', b.length = n := by
  obtain ⟨buffer, hbuffer, hstart, hdata, rfl⟩ := copyRow_eq_some h
  refine ⟨List.length_set, fun b hb => ?_⟩
  rcases List.mem_or_eq_of_mem_set hb with hb | rfl
  · exact hsize b hb
  · rw [length_copied hstart hdata]
    exact hsize buffer (List.mem_of_getElem? hbuffer)

/-- Cells before the row are not touched. -/
theorem take_copyRow (h : copyRow buffers layer start len data = some buffers') (other : Nat) :
    (buffers'[other]?).map (List.take start) = (buffers[other]?).map (List.take start) := by
  obtain ⟨buffer, hbuffer, hstart, hdata, rfl⟩ := copyRow_eq_some h
  obtain ⟨hlt, hget⟩ := List.getElem?_eq_some_iff.1 hbuffer
  by_cases heq : layer = other
  · subst heq
    have htake : (buffer.take start).length = start := by rw [List.length_take]; omega
    rw [List.getElem?_set_self hlt, hbuffer, Option.map_some, Option.map_some, List.append_assoc, List.take_left' htake]
  · rw [List.getElem?_set_ne heq]

/-- With the row, the cells up to its end are those before it and the data. -/
theorem take_copyRow_self (h : copyRow buffers layer start len data = some buffers') :
    (buffers'[layer]?).map (List.take (start + len)) = (buffers[layer]?).map (fun b => b.take start ++ data) := by
  obtain ⟨buffer, hbuffer, hstart, hdata, rfl⟩ := copyRow_eq_some h
  obtain ⟨hlt, hget⟩ := List.getElem?_eq_some_iff.1 hbuffer
  have htake : (buffer.take start ++ data).length = start + len := by
    rw [List.length_append, List.length_take]
    omega
  rw [List.getElem?_set_self hlt, hbuffer, Option.map_some, Option.map_some, List.take_left' htake]

theorem getElem?_copyRow_of_ne (h : copyRow buffers layer start len data = some buffers') {other : Nat} (hne : layer ≠ other) :
    buffers'[other]? = buffers[other]? := by
  obtain ⟨buffer, -, -, -, rfl⟩ := copyRow_eq_some h
  exact List.getElem?_set_ne hne

theorem exists_copyRow (hlayer : layer < buffers.length) {n : Nat} (hsize : ∀ b ∈ buffers, b.length = n)
    (hstart : start + len ≤ n) (hdata : data.length = len) : ∃ buffers', copyRow buffers layer start len data = some buffers' := by
  have hbuffer := List.getElem?_eq_getElem hlayer
  exact ⟨_, copyRow_of_le hbuffer (by rw [hsize _ (List.mem_of_getElem? hbuffer)]; exact hstart) hdata⟩

/-- The same row over the same cells. -/
theorem take_copyRow_congr {other other' : List (List F32)} (h : copyRow buffers layer start len data = some buffers')
    (h' : copyRow other layer start len data = some other')
    (hsame : (buffers[layer]?).map (List.take start) = (other[layer]?).map (List.take start)) :
    (buffers'[layer]?).map (List.take (start + len)) = (other'[layer]?).map (List.take (start + len)) := by
  rw [take_copyRow_self h, take_copyRow_self h']
  have := congrArg (Option.map (· ++ data)) hsame
  simpa [Option.map_map, Function.comp_def] using this

end

namespace Session
variable {reserve : Nat → Bool}

theorem uncommitted_appendRow (layer : Nat) (key value : List F32) :
    Exec.Keeps Uncommitted (appendRow layer key value) := by
  intro s
  change Uncommitted s (appendRow layer key value s).2
  simp only [appendRow]
  split
  · exact .refl s
  · rename_i keys hkeys
    split
    · refine ⟨rfl, rfl, rfl, fun hs => ?_, fun other => ⟨(take_copyRow hkeys other).symm, rfl⟩⟩
      obtain ⟨hlength, hsize⟩ := sizes_copyRow hkeys hs.keySize
      exact ⟨hlength.trans hs.keys, hs.values, hsize, hs.valueSize⟩
    · rename_i values hvalues
      refine ⟨rfl, rfl, rfl, fun hs => ?_, fun other => ⟨(take_copyRow hkeys other).symm, (take_copyRow hvalues other).symm⟩⟩
      obtain ⟨hlength, hsize⟩ := sizes_copyRow hkeys hs.keySize
      obtain ⟨hlength', hsize'⟩ := sizes_copyRow hvalues hs.valueSize
      exact ⟨hlength.trans hs.keys, hlength'.trans hs.values, hsize, hsize'⟩

theorem uncommitted_forwardLayer (reserve : Nat → Bool) (hidden : List F32) (index : Nat) :
    Exec.Keeps Uncommitted (forwardLayer reserve hidden index) :=
  .bind (fun _ _ _ => .trans) (fun s => .refl s) fun _ =>
    .bind (fun _ _ _ => .trans) (.ofExcept .refl _) fun _ =>
      .bind (fun _ _ _ => .trans) (.ofExcept .refl _) fun qkv =>
        .bind (fun _ _ _ => .trans) (uncommitted_appendRow index qkv.2.1 qkv.2.2) fun _ =>
          .bind (fun _ _ _ => .trans) (fun s => .refl s) fun _ =>
            .bind (fun _ _ _ => .trans) (.ofExcept .refl _) fun _ => .ofExcept .refl _

theorem uncommitted_layer (reserve : Nat → Bool) (step : TokenStep) (index : Nat) : Exec.Keeps Uncommitted (step.layer reserve index) :=
  .bind (fun _ _ _ => .trans) (fun s => .refl s) fun _ =>
    .bind (fun _ _ _ => .trans) (.ofExcept .refl _) fun _ =>
      .bind (fun _ _ _ => .trans) (uncommitted_forwardLayer reserve step.hidden index) fun _ => .ofExcept .refl (.ok _)

/-- The session `s` has the committed rows of `f` at `layers`. -/
structure Agree (layers : List Nat) (s f : Session) : Prop where
  model : s.model = f.model
  position : s.position = f.position
  context : s.context ≤ f.context
  left : s.Laid
  right : f.Laid
  before : ∀ layer ∈ layers, SameCells layer (f.position * f.model.config.kvWidth) s f

/-- Both sessions during a token: its rows agree at the layers `done`, and outside `layers` the session `f` is still
`base`. -/
structure Paired (layers : List Nat) (base : Session) (done : List Nat) (s f : Session) : Prop where
  agree : Agree layers s f
  room : f.position < f.context
  now : ∀ layer ∈ done, SameCells layer ((f.position + 1) * f.model.config.kvWidth) s f
  frame : ∀ layer ∉ layers, f.keys[layer]? = base.keys[layer]? ∧ f.values[layer]? = base.values[layer]?

variable {layers done : List Nat} {base s f : Session} {layer : Nat}

theorem appendRow_sim (hlayer : layer ∈ layers) (key value : List F32) :
    Exec.Sim (Paired layers base done) (appendRow layer key value) (appendRow layer key value)
      (fun _ => Paired layers base (done ++ [layer])) := by
  intro s f h u s' hrun
  change appendRow layer key value s = _ at hrun
  simp only [appendRow] at hrun
  split at hrun
  · cases hrun
  · rename_i keys hkeys
    split at hrun
    · cases hrun
    · rename_i values hvalues
      cases hrun
      obtain ⟨kbuffer, hkbuffer, -, hkdata, -⟩ := copyRow_eq_some hkeys
      obtain ⟨vbuffer, hvbuffer, -, hvdata, -⟩ := copyRow_eq_some hvalues
      have hagree := h.agree
      rw [hagree.model, hagree.position] at hkeys hvalues
      rw [hagree.model] at hkdata hvdata
      have hlt : layer < f.model.config.blockCount := by
        rw [← hagree.model, ← hagree.left.keys]
        exact (List.getElem?_eq_some_iff.1 hkbuffer).1
      have hsize : f.position * f.model.config.kvWidth + f.model.config.kvWidth ≤ f.context * f.model.config.kvWidth := by
        calc f.position * f.model.config.kvWidth + f.model.config.kvWidth
            = (f.position + 1) * f.model.config.kvWidth := by ring
          _ ≤ f.context * f.model.config.kvWidth := Nat.mul_le_mul_right _ h.room
      obtain ⟨keys', hkeys'⟩ := exists_copyRow (hagree.right.keys ▸ hlt) hagree.right.keySize hsize hkdata
      obtain ⟨values', hvalues'⟩ := exists_copyRow (hagree.right.values ▸ hlt) hagree.right.valueSize hsize hvdata
      have hend : (f.position + 1) * f.model.config.kvWidth = f.position * f.model.config.kvWidth + f.model.config.kvWidth := by
        ring
      refine ⟨{ f with keys := keys', values := values' }, ?_, ?_⟩
      · change appendRow layer key value f = _
        simp [appendRow, hkeys', hvalues']
      have hbefore := hagree.before layer hlayer
      obtain ⟨hk₁, hk₂⟩ := sizes_copyRow hkeys hagree.left.keySize
      obtain ⟨hv₁, hv₂⟩ := sizes_copyRow hvalues hagree.left.valueSize
      obtain ⟨hk₃, hk₄⟩ := sizes_copyRow hkeys' hagree.right.keySize
      obtain ⟨hv₃, hv₄⟩ := sizes_copyRow hvalues' hagree.right.valueSize
      refine ⟨⟨hagree.model, hagree.position, hagree.context,
        ⟨hk₁.trans hagree.left.keys, hv₁.trans hagree.left.values, hk₂, hv₂⟩,
        ⟨hk₃.trans hagree.right.keys, hv₃.trans hagree.right.values, hk₄, hv₄⟩, fun other hother => ?_⟩, h.room,
        fun other hother => ?_, fun other hother => ?_⟩
      · have hcells := hagree.before other hother
        exact ⟨(take_copyRow hkeys other).trans (hcells.1.trans (take_copyRow hkeys' other).symm),
          (take_copyRow hvalues other).trans (hcells.2.trans (take_copyRow hvalues' other).symm)⟩
      · change (keys[other]?).map (List.take ((f.position + 1) * f.model.config.kvWidth)) =
            (keys'[other]?).map (List.take ((f.position + 1) * f.model.config.kvWidth)) ∧
          (values[other]?).map (List.take ((f.position + 1) * f.model.config.kvWidth)) =
            (values'[other]?).map (List.take ((f.position + 1) * f.model.config.kvWidth))
        rw [hend]
        by_cases heq : layer = other
        · subst heq
          exact ⟨take_copyRow_congr hkeys hkeys' hbefore.1, take_copyRow_congr hvalues hvalues' hbefore.2⟩
        · rw [getElem?_copyRow_of_ne hkeys heq, getElem?_copyRow_of_ne hkeys' heq, getElem?_copyRow_of_ne hvalues heq,
            getElem?_copyRow_of_ne hvalues' heq, ← hend]
          refine h.now other ?_
          rcases List.mem_append.1 hother with hother | hother
          · exact hother
          · exact absurd (List.mem_singleton.1 hother).symm heq
      · have hne : layer ≠ other := fun heq => hother (heq ▸ hlayer)
        rw [getElem?_copyRow_of_ne hkeys' hne, getElem?_copyRow_of_ne hvalues' hne]
        exact h.frame other hother

/-- A token that has gone through all of `layers`, committed on both sides. -/
theorem Paired.commit (h : Paired layers base layers s f) :
    Agree layers { s with position := s.position + 1 } { f with position := f.position + 1 } := by
  obtain ⟨hmodel, hposition, hcontext, hleft, hright, -⟩ := h.agree
  exact ⟨hmodel, congrArg (· + 1) hposition, hcontext, ⟨hleft.keys, hleft.values, hleft.keySize, hleft.valueSize⟩,
    ⟨hright.keys, hright.values, hright.keySize, hright.valueSize⟩, h.now⟩

/-- The attention of a layer whose rows agree. -/
theorem attended_congr (h : Paired layers base done s f) (hlayer : layer ∈ done) (query : List F32) :
    s.attended reserve layer query = f.attended reserve layer query := by
  obtain ⟨hkeys, hvalues⟩ := h.now layer hlayer
  unfold attended
  rw [h.agree.model, h.agree.position]
  rcases hks : s.keys[layer]? with _ | ks <;> rcases hkf : f.keys[layer]? with _ | kf <;>
    rw [hks, hkf] at hkeys <;> try cases hkeys
  · rfl
  rcases hvs : s.values[layer]? with _ | vs <;> rcases hvf : f.values[layer]? with _ | vf <;>
    rw [hvs, hvf] at hvalues <;> try cases hvalues
  · rfl
  have hk := Option.some.inj hkeys
  have hv := Option.some.inj hvalues
  change f.model.attend reserve f.position query ks vs = f.model.attend reserve f.position query kf vf
  rw [← f.model.attend_take reserve f.position query ks vs, hk, hv, f.model.attend_take]

theorem forwardLayer_sim (hlayer : layer ∈ layers) (hidden : List F32) :
    Exec.Sim (Paired layers base done) (forwardLayer reserve hidden layer) (forwardLayer (fun _ => true) hidden layer)
      (fun _ => Paired layers base (done ++ [layer])) := by
  intro s f h output s' hrun
  unfold forwardLayer at hrun ⊢
  rw [Exec.run_get_bind, h.agree.model, h.agree.position] at hrun
  rw [Exec.run_get_bind]
  obtain ⟨tensors, t, hread, hrun⟩ := Exec.bind_eq_ok.1 hrun
  obtain ⟨htensors, rfl⟩ := Prod.mk.inj hread
  obtain ⟨qkv, t, hread, hrun⟩ := Exec.bind_eq_ok.1 hrun
  obtain ⟨hqkv, rfl⟩ := Prod.mk.inj hread
  have hqkv' : returned (f.model.projections (fun _ => true) f.position tensors hidden) = .ok qkv :=
    (Model.refines_projections f.position tensors hidden).mapError qkv hqkv
  obtain ⟨_, s₁, happend, hrun⟩ := Exec.bind_eq_ok.1 hrun
  obtain ⟨f₁, happend', hpaired⟩ := appendRow_sim hlayer qkv.2.1 qkv.2.2 s f h _ _ happend
  rw [Exec.run_get_bind, attended_congr hpaired (by simp) qkv.1, hpaired.agree.model] at hrun
  obtain ⟨attended, t, hread, hfeed⟩ := Exec.bind_eq_ok.1 hrun
  obtain ⟨hattended, rfl⟩ := Prod.mk.inj hread
  obtain ⟨houtput, rfl⟩ := Prod.mk.inj hfeed
  have hattended' : f₁.attended (fun _ => true) layer qkv.1 = .ok attended := by
    obtain ⟨keys, hkeys, hrest⟩ := Except.bind_eq_ok.1 hattended
    obtain ⟨values, hvalues, hrest⟩ := Except.bind_eq_ok.1 hrest
    exact Except.bind_eq_ok.2 ⟨keys, hkeys, Except.bind_eq_ok.2 ⟨values, hvalues,
      Model.refines_attend f₁.position qkv.1 keys values attended hrest⟩⟩
  have houtput' : returned (f₁.model.feedForward (fun _ => true) tensors hidden attended) = .ok output :=
    (Model.refines_feedForward tensors hidden attended).mapError output houtput
  refine ⟨f₁, Exec.bind_eq_ok.2 ⟨tensors, f, congrArg (·, f) htensors, ?_⟩, hpaired⟩
  refine Exec.bind_eq_ok.2 ⟨qkv, f, congrArg (·, f) hqkv', ?_⟩
  refine Exec.bind_eq_ok.2 ⟨(), f₁, happend', ?_⟩
  rw [Exec.run_get_bind]
  exact Exec.bind_eq_ok.2 ⟨attended, f₁, congrArg (·, f₁) hattended', congrArg (·, f₁) houtput'⟩

/-! ### Tokens -/

/-- Every layer of a model. -/
abbrev allLayers (m : Model) : List Nat := List.range m.config.blockCount

/-- `s` has committed what `f` has. -/
structure Follows (m : Model) (s f : Session) : Prop where
  agree : Agree (allLayers m) s f
  model : f.model = m

/-- Both during a token that has gone through the layers `done`. -/
structure During (m : Model) (base : Session) (done : List Nat) (s f : Session) : Prop where
  paired : Paired (allLayers m) base done s f
  model : f.model = m

variable {m : Model} {token : UInt32}

theorem beginToken_sim : Exec.Sim (Follows m) (beginToken reserve token) (beginToken (fun _ => true) token)
    (fun step s f => During m f [] s f ∧ step.nextLayer = 0) := by
  intro s f h step s' hrun
  unfold beginToken at hrun ⊢
  rw [Exec.run_get_bind, h.agree.model, h.agree.position] at hrun
  rw [Exec.run_get_bind]
  obtain ⟨_, t, hread, hrun⟩ := Exec.bind_eq_ok.1 hrun
  obtain ⟨hroom, rfl⟩ := Prod.mk.inj hread
  obtain ⟨_, t, hread, hrun⟩ := Exec.bind_eq_ok.1 hrun
  obtain ⟨hknown, rfl⟩ := Prod.mk.inj hread
  obtain ⟨hidden, t, hread, hrun⟩ := Exec.bind_eq_ok.1 hrun
  obtain ⟨hhidden, rfl⟩ := Prod.mk.inj hread
  obtain ⟨hstep, rfl⟩ := Prod.mk.inj hrun
  obtain rfl := Except.ok.inj hstep
  have hhidden' : returned (f.model.embedToken (fun _ => true) token) = .ok hidden :=
    (Model.refines_embedToken token).mapError hidden hhidden
  rw [Except.failIf_eq_ok, Nat.not_le] at hroom
  have hroom' : f.position < f.context := hroom.trans_le h.agree.context
  refine ⟨f, ?_, ⟨⟨h.agree, hroom', nofun, fun _ _ => ⟨rfl, rfl⟩⟩, h.model⟩, rfl⟩
  refine Exec.bind_eq_ok.2 ⟨(), f, congrArg (·, f) (Except.failIf_eq_ok.2 (by omega)), ?_⟩
  refine Exec.bind_eq_ok.2 ⟨(), f, congrArg (·, f) hknown, ?_⟩
  exact Exec.bind_eq_ok.2 ⟨hidden, f, congrArg (·, f) hhidden', rfl⟩

theorem layer_sim (step : TokenStep) (index : Nat) :
    Exec.Sim (During m base done) (step.layer reserve index) (step.layer (fun _ => true) index)
      (fun step' s f => During m base (done ++ [index]) s f ∧ index = step.nextLayer ∧ step'.nextLayer = index + 1) := by
  intro s f h step' s' hrun
  unfold TokenStep.layer at hrun ⊢
  rw [Exec.run_get_bind, h.paired.agree.model] at hrun
  rw [Exec.run_get_bind]
  obtain ⟨_, t, hread, hrun⟩ := Exec.bind_eq_ok.1 hrun
  obtain ⟨hguard, rfl⟩ := Prod.mk.inj hread
  obtain ⟨hidden, s₁, hforward, hrun⟩ := Exec.bind_eq_ok.1 hrun
  obtain ⟨hstep, rfl⟩ := Prod.mk.inj hrun
  obtain rfl := Except.ok.inj hstep
  have hbounds := Except.failIf_eq_ok.1 hguard
  push Not at hbounds
  have hlayer : index ∈ allLayers m := List.mem_range.2 (h.model ▸ hbounds.2)
  obtain ⟨f₁, hforward', hpaired⟩ := forwardLayer_sim hlayer step.hidden s f h.paired hidden s₁ hforward
  have hkeeps := uncommitted_forwardLayer (fun _ => true) step.hidden index f
  rw [hforward'] at hkeeps
  refine ⟨f₁, ?_, ⟨hpaired, hkeeps.model.trans h.model⟩, hbounds.1, by rw [← hbounds.1]⟩
  exact Exec.bind_eq_ok.2 ⟨(), f, congrArg (·, f) hguard, Exec.bind_eq_ok.2 ⟨hidden, f₁, hforward', rfl⟩⟩

theorem finish_sim (step : TokenStep) : Exec.Sim (During m base (allLayers m)) (step.finish reserve)
    (step.finish (fun _ => true)) (fun _ => Follows m) := by
  intro s f h logits s' hrun
  have hagree := h.paired.agree
  unfold TokenStep.finish at hrun ⊢
  rw [Exec.run_get_bind, hagree.model] at hrun
  rw [Exec.run_get_bind]
  obtain ⟨_, t, hread, hrun⟩ := Exec.bind_eq_ok.1 hrun
  obtain ⟨hguard, rfl⟩ := Prod.mk.inj hread
  obtain ⟨output, t, hread, hrun⟩ := Exec.bind_eq_ok.1 hrun
  obtain ⟨houtput, rfl⟩ := Prod.mk.inj hread
  cases hrun
  have houtput' : returned (f.model.finalLogits (fun _ => true) step.hidden) = .ok logits :=
    (Model.refines_finalLogits step.hidden).mapError logits houtput
  refine ⟨{ f with position := f.position + 1 }, ?_, h.paired.commit, h.model⟩
  refine Exec.bind_eq_ok.2 ⟨(), f, congrArg (·, f) hguard, ?_⟩
  exact Exec.bind_eq_ok.2 ⟨logits, f, congrArg (·, f) houtput', rfl⟩

theorem forwardToken_sim : Exec.Sim (Follows m) (forwardToken reserve token) (forwardToken (fun _ => true) token)
    (fun _ => Follows m) := by
  intro s f h logits s' hrun
  unfold forwardToken at hrun ⊢
  rw [Exec.run_get_bind, h.agree.model] at hrun
  rw [Exec.run_get_bind]
  obtain ⟨step, s₁, hbegin, hrun⟩ := Exec.bind_eq_ok.1 hrun
  obtain ⟨step', s₂, hlayers, hfinish⟩ := Exec.bind_eq_ok.1 hrun
  obtain ⟨f₁, hbegin', hduring, -⟩ := beginToken_sim s f h step s₁ hbegin
  have hloop := Exec.Sim.foldlM (I := During m f₁) (f := fun step layer => step.layer reserve layer)
    (g := fun step layer => step.layer (fun _ => true) layer) (allLayers m)
    (fun done layer rest step _ => (layer_sim step layer).mono (fun _ _ hp => hp) fun _ _ _ hq => hq.1) step
  rw [h.model] at hlayers ⊢
  obtain ⟨f₂, hlayers', hduring'⟩ := hloop s₁ f₁ hduring step' s₂ hlayers
  obtain ⟨f₃, hfinish', hfollows⟩ := finish_sim step' s₂ f₂ hduring' logits s' hfinish
  exact ⟨f₃, Exec.bind_eq_ok.2 ⟨step, f₁, hbegin', Exec.bind_eq_ok.2 ⟨step', f₂, hlayers', hfinish'⟩⟩, hfollows⟩

theorem forwardTokens_sim (tokens : List UInt32) : Exec.Sim (Follows m) (forwardTokens reserve tokens)
    (forwardTokens (fun _ => true) tokens) (fun _ => Follows m) :=
  Exec.Sim.foldlM (I := fun _ => Follows m) tokens (fun _ _ _ _ _ => forwardToken_sim) []

/-! ### What a failed call leaves -/

/-- Tokens may have been committed, but the rows below the old position stay. -/
structure Grown (s s' : Session) : Prop where
  model : s'.model = s.model
  context : s'.context = s.context
  laid : s.Laid → s'.Laid
  position : s.position ≤ s'.position
  cells : ∀ layer, SameCells layer (s.position * s.model.config.kvWidth) s s'

namespace Grown
variable {s s' s'' : Session}

theorem refl (s : Session) : Grown s s := ⟨rfl, rfl, id, le_rfl, fun layer => .refl layer _ s⟩

theorem trans (h : Grown s s') (h' : Grown s' s'') : Grown s s'' := by
  refine ⟨h'.model.trans h.model, h'.context.trans h.context, fun hs => h'.laid (h.laid hs), h.position.trans h'.position,
    fun layer => (h.cells layer).trans ((h'.cells layer).mono ?_)⟩
  rw [h.model]
  exact Nat.mul_le_mul_right _ h.position

theorem of_uncommitted (h : Uncommitted s s') : Grown s s' := ⟨h.model, h.context, h.laid, h.position.ge, h.cells⟩

theorem committed (s : Session) : Grown s { s with position := s.position + 1 } :=
  ⟨rfl, rfl, fun hs => ⟨hs.keys, hs.values, hs.keySize, hs.valueSize⟩, Nat.le_succ _, fun layer => ⟨rfl, rfl⟩⟩

end Grown

theorem grown_beginToken (reserve : Nat → Bool) (token : UInt32) : Exec.Keeps Grown (beginToken reserve token) :=
  .bind (fun _ _ _ => .trans) (fun s => .refl s) fun _ =>
    .bind (fun _ _ _ => .trans) (.ofExcept .refl _) fun _ =>
      .bind (fun _ _ _ => .trans) (.ofExcept .refl _) fun _ =>
        .bind (fun _ _ _ => .trans) (.ofExcept .refl _) fun _ => .ofExcept .refl (.ok _)

theorem grown_layer (reserve : Nat → Bool) (step : TokenStep) (index : Nat) :
    Exec.Keeps Grown (step.layer reserve index) := fun s => .of_uncommitted (uncommitted_layer reserve step index s)

theorem grown_finish (reserve : Nat → Bool) (step : TokenStep) : Exec.Keeps Grown (step.finish reserve) :=
  .bind (fun _ _ _ => .trans) (fun s => .refl s) fun _ =>
    .bind (fun _ _ _ => .trans) (.ofExcept .refl _) fun _ =>
      .bind (fun _ _ _ => .trans) (.ofExcept .refl _) fun _ =>
        .bind (fun _ _ _ => .trans) (fun s => .committed s) fun _ => .ofExcept .refl (.ok _)

theorem grown_forwardToken (reserve : Nat → Bool) (token : UInt32) : Exec.Keeps Grown (forwardToken reserve token) :=
  .bind (fun _ _ _ => .trans) (fun s => .refl s) fun _ =>
    .bind (fun _ _ _ => .trans) (grown_beginToken reserve token) fun step =>
      .bind (fun _ _ _ => .trans) (.foldlM .refl (fun _ _ _ => .trans) (fun step layer => grown_layer reserve step layer) _ step)
        fun step => grown_finish reserve step

theorem grown_forwardTokens (reserve : Nat → Bool) (tokens : List UInt32) :
    Exec.Keeps Grown (forwardTokens reserve tokens) :=
  .foldlM .refl (fun _ _ _ => .trans) (fun _ token => grown_forwardToken reserve token) _ _

/-- Rows left above the position change nothing for those who follow `f`. -/
theorem Follows.grown {s s' : Session} (h : Follows m s f) (hs : Grown s s') :
    Follows m { s' with position := s.position } f := by
  have hagree := h.agree
  obtain ⟨hkeys, hvalues, hkeySize, hvalueSize⟩ := hs.laid hagree.left
  refine ⟨⟨hs.model.trans hagree.model, hagree.position, hs.context.trans_le hagree.context,
    ⟨hkeys, hvalues, hkeySize, hvalueSize⟩, hagree.right, fun layer hlayer => ?_⟩, h.model⟩
  have hcells := hs.cells layer
  rw [hagree.position, hagree.model] at hcells
  have hsame : SameCells layer (f.position * f.model.config.kvWidth) s' f := hcells.symm.trans (hagree.before layer hlayer)
  exact hsame

theorem Follows.uncommitted {s s' : Session} (h : Follows m s f) (hs : Uncommitted s s') : Follows m s' f := by
  have hfollows := h.grown (.of_uncommitted hs)
  rwa [← hs.position] at hfollows

/-! ### Successful calls -/

/-- A token that is committed was known and had room. -/
theorem forwardToken_ok {logits : List F32} {s s' : Session} (h : (forwardToken reserve token).run s = (.ok logits, s')) :
    s.position < s.context ∧ token.toNat < s.model.config.vocabSize ∧ s'.position = s.position + 1 := by
  unfold forwardToken at h
  rw [Exec.run_get_bind] at h
  obtain ⟨step, s₁, hbegin, h⟩ := Exec.bind_eq_ok.1 h
  obtain ⟨step', s₂, hlayers, hfinish⟩ := Exec.bind_eq_ok.1 h
  have hkeeps : Uncommitted s₁ s₂ := by
    have := (Exec.Keeps.foldlM (R := Uncommitted) .refl (fun _ _ _ => .trans)
      (fun step layer => uncommitted_layer reserve step layer) (List.range s.model.config.blockCount) step) s₁
    rwa [hlayers] at this
  unfold beginToken at hbegin
  rw [Exec.run_get_bind] at hbegin
  obtain ⟨_, t, hread, hbegin⟩ := Exec.bind_eq_ok.1 hbegin
  obtain ⟨hroom, rfl⟩ := Prod.mk.inj hread
  obtain ⟨_, t, hread, hbegin⟩ := Exec.bind_eq_ok.1 hbegin
  obtain ⟨hknown, rfl⟩ := Prod.mk.inj hread
  obtain ⟨hidden, t, hread, hbegin⟩ := Exec.bind_eq_ok.1 hbegin
  obtain ⟨-, rfl⟩ := Prod.mk.inj hread
  obtain ⟨-, rfl⟩ := Prod.mk.inj hbegin
  unfold TokenStep.finish at hfinish
  rw [Exec.run_get_bind] at hfinish
  obtain ⟨_, t, hread, hfinish⟩ := Exec.bind_eq_ok.1 hfinish
  obtain ⟨-, rfl⟩ := Prod.mk.inj hread
  obtain ⟨output, t, hread, hfinish⟩ := Exec.bind_eq_ok.1 hfinish
  obtain ⟨-, rfl⟩ := Prod.mk.inj hread
  cases hfinish
  rw [Except.failIf_eq_ok, Nat.not_le] at hroom hknown
  exact ⟨hroom, hknown, congrArg (· + 1) hkeeps.position⟩

theorem forwardTokens_cons (token : UInt32) (tokens : List UInt32) (hne : tokens ≠ []) :
    forwardTokens reserve (token :: tokens) = forwardToken reserve token >>= fun _ => forwardTokens reserve tokens := by
  obtain ⟨next, rest, rfl⟩ := List.exists_cons_of_ne_nil hne
  rfl

theorem forwardTokens_single (token : UInt32) : forwardTokens reserve [token] = forwardToken reserve token := by
  simp [forwardTokens]

theorem forwardTokens_append (tokens ids : List UInt32) (hne : ids ≠ []) :
    forwardTokens reserve (tokens ++ ids) = forwardTokens reserve tokens >>= fun _ => forwardTokens reserve ids := by
  obtain ⟨next, rest, rfl⟩ := List.exists_cons_of_ne_nil hne
  unfold forwardTokens
  rw [List.foldlM_append]
  rfl

theorem forwardTokens_ok {tokens : List UInt32} {logits : List F32} {s s' : Session}
    (h : (forwardTokens reserve tokens).run s = (.ok logits, s')) :
    (tokens ≠ [] → s.position + tokens.length ≤ s.context) ∧ s'.position = s.position + tokens.length ∧
      ∀ id ∈ tokens, id.toNat < s.model.config.vocabSize := by
  induction tokens generalizing s with
  | nil =>
    cases h
    exact ⟨fun hne => absurd rfl hne, rfl, nofun⟩
  | cons token tokens ih =>
    by_cases hne : tokens = []
    · subst hne
      rw [forwardTokens_single] at h
      obtain ⟨hroom, hknown, hposition⟩ := forwardToken_ok h
      refine ⟨fun _ => hroom, hposition, fun id hid => ?_⟩
      rw [List.mem_singleton.1 hid]
      exact hknown
    · rw [forwardTokens_cons token tokens hne] at h
      obtain ⟨first, s₁, hfirst, hrest⟩ := Exec.bind_eq_ok.1 h
      obtain ⟨-, hknown, hposition⟩ := forwardToken_ok hfirst
      obtain ⟨hroom, hposition', hknown'⟩ := ih hrest
      have hgrown := grown_forwardToken reserve token s
      rw [hfirst] at hgrown
      have hroom := hroom hne
      have hcontext := hgrown.context
      have hmodel := hgrown.model
      rw [hposition, hcontext] at hroom
      rw [hposition] at hposition'
      refine ⟨fun _ => ?_, ?_, fun id hid => ?_⟩
      · rw [List.length_cons]
        omega
      · rw [List.length_cons]
        omega
      · rcases List.mem_cons.1 hid with rfl | hid
        · exact hknown
        · exact hmodel ▸ hknown' id hid

/-- A prefill is accepted, and then its loop succeeds. -/
theorem prefill_eq_ok {ids : List UInt32} {logits : List F32} {s s' : Session} (hsmall : s.context < 2 ^ 64) :
    (prefill reserve ids).run s = (.ok logits, s') ↔ ids ≠ [] ∧ (forwardTokens reserve ids).run s = (.ok logits, s') := by
  change prefill reserve ids s = _ ↔ _
  unfold prefill
  constructor
  · intro h
    split at h
    · cases h
    · rename_i hne
      split at h
      · cases h
      · split at h
        · cases h
        · split at h
          · rename_i hrun
            cases h
            exact ⟨hne, hrun⟩
          · cases h
          · cases h
  · rintro ⟨hne, hrun⟩
    obtain ⟨hroom, -, hknown⟩ := forwardTokens_ok hrun
    have hroom := hroom hne
    rw [if_neg hne, if_neg (by omega), if_neg (by simpa using hknown), hrun]

/-- A prefill that returns an error leaves the position where it was. -/
theorem prefill_error {ids : List UInt32} {e : String} {s s' : Session}
    (h : (prefill reserve ids).run s = (.error (.error e), s')) : s'.position = s.position := by
  change prefill reserve ids s = _ at h
  unfold prefill at h
  split at h
  · cases h
    rfl
  · split at h
    · cases h
      rfl
    · split at h
      · cases h
        rfl
      · split at h
        · cases h
        · cases h
          rfl
        · cases h

theorem decode_eq_ok {logits : List F32} {s s' : Session} (hsmall : s.context < 2 ^ 64) :
    (decode reserve token).run s = (.ok logits, s') ↔ (forwardToken reserve token).run s = (.ok logits, s') := by
  unfold decode
  rw [prefill_eq_ok hsmall, forwardTokens_single]
  exact and_iff_right (List.cons_ne_nil _ _)

/-- One `decode` for each token. -/
def decodeEach (reserve : Nat → Bool) (ids : List UInt32) : Exec (Except.Fault String) Session (List (List F32)) :=
  ids.mapM fun id => decode reserve id

/-- One prefill of some tokens is as many decodes. -/
theorem prefill_iff_decodeEach {ids : List UInt32} {logits : List F32} {s s' : Session} (hsmall : s.context < 2 ^ 64)
    (hne : ids ≠ []) : (prefill reserve ids).run s = (.ok logits, s') ↔
      ∃ earlier, (decodeEach reserve ids).run s = (.ok (earlier ++ [logits]), s') := by
  rw [prefill_eq_ok hsmall, and_iff_right hne]
  induction ids generalizing s with
  | nil => exact absurd rfl hne
  | cons id ids ih =>
    have hsplit : decodeEach reserve (id :: ids) = decode reserve id >>= fun l => decodeEach reserve ids >>= fun ls =>
        pure (l :: ls) := by
      unfold decodeEach
      rw [List.mapM_cons]
    rw [hsplit]
    by_cases hrest : ids = []
    · subst hrest
      rw [forwardTokens_single, ← decode_eq_ok hsmall]
      constructor
      · intro h
        exact ⟨[], Exec.bind_eq_ok.2 ⟨logits, s', h, rfl⟩⟩
      · rintro ⟨earlier, h⟩
        obtain ⟨l, s₁, hl, h⟩ := Exec.bind_eq_ok.1 h
        cases earlier with
        | nil =>
          cases h
          exact hl
        | cons first rest =>
          obtain ⟨hlist, -⟩ := Prod.mk.inj h
          have hlength := congrArg List.length (Except.ok.inj hlist)
          simp at hlength
    · rw [forwardTokens_cons id ids hrest]
      constructor
      · intro h
        obtain ⟨first, s₁, hfirst, h⟩ := Exec.bind_eq_ok.1 h
        have hgrown := grown_forwardToken reserve id s
        rw [hfirst] at hgrown
        obtain ⟨earlier, hearlier⟩ := (ih (hgrown.context ▸ hsmall) hrest).1 h
        exact ⟨first :: earlier, Exec.bind_eq_ok.2 ⟨first, s₁, (decode_eq_ok hsmall).2 hfirst,
          Exec.bind_eq_ok.2 ⟨_, s', hearlier, rfl⟩⟩⟩
      · rintro ⟨earlier, h⟩
        obtain ⟨first, s₁, hfirst, h⟩ := Exec.bind_eq_ok.1 h
        rw [decode_eq_ok hsmall] at hfirst
        have hgrown := grown_forwardToken reserve id s
        rw [hfirst] at hgrown
        obtain ⟨ls, s₂, hls, h⟩ := Exec.bind_eq_ok.1 h
        obtain ⟨hlist, rfl⟩ := Prod.mk.inj h
        have hlist := Except.ok.inj hlist
        cases earlier with
        | nil =>
          obtain rfl : ls = [] := (List.cons.inj hlist).2
          have hlength : (decodeEach reserve ids).run s₁ = (.ok [], s₂) := hls
          obtain ⟨next, rest, rfl⟩ := List.exists_cons_of_ne_nil hrest
          unfold decodeEach at hlength
          rw [List.mapM_cons] at hlength
          obtain ⟨l, s₃, -, hlength⟩ := Exec.bind_eq_ok.1 hlength
          obtain ⟨ls, s₄, -, hlength⟩ := Exec.bind_eq_ok.1 hlength
          cases hlength
        | cons _ rest =>
          obtain ⟨-, rfl⟩ := List.cons.inj hlist
          exact Exec.bind_eq_ok.2 ⟨first, s₁, hfirst, (ih (hgrown.context ▸ hsmall) hrest).2 ⟨rest, hls⟩⟩

/-! ### Sessions in use -/

/-- A session between two calls, or borrowed by a token that was begun. -/
inductive Use where
  | idle (s : Session)
  | active (s : Session) (step : TokenStep) (token : UInt32)

/-- A session in use, with the tokens committed since the last reset. -/
inductive Run (start : Session) : Use → List UInt32 → Prop
  | start : Run start (.idle start) []
  | prefilled {s tokens reserve ids logits s'} (h : Run start (.idle s) tokens)
      (hrun : (prefill reserve ids).run s = (.ok logits, s')) : Run start (.idle s') (tokens ++ ids)
  | notPrefilled {s tokens reserve ids e s'} (h : Run start (.idle s) tokens)
      (hrun : (prefill reserve ids).run s = (.error (.error e), s')) : Run start (.idle s') tokens
  | begun {s tokens reserve token step s'} (h : Run start (.idle s) tokens)
      (hrun : (beginToken reserve token).run s = (.ok step, s')) : Run start (.active s' step token) tokens
  | notBegun {s tokens reserve token e s'} (h : Run start (.idle s) tokens)
      (hrun : (beginToken reserve token).run s = (.error (.error e), s')) : Run start (.idle s') tokens
  | layer {s step token tokens reserve index step' s'} (h : Run start (.active s step token) tokens)
      (hrun : (step.layer reserve index).run s = (.ok step', s')) : Run start (.active s' step' token) tokens
  | notLayer {s step token tokens reserve index e s'} (h : Run start (.active s step token) tokens)
      (hrun : (step.layer reserve index).run s = (.error (.error e), s')) : Run start (.idle s') tokens
  | finished {s step token tokens reserve logits s'} (h : Run start (.active s step token) tokens)
      (hrun : (step.finish reserve).run s = (.ok logits, s')) : Run start (.idle s') (tokens ++ [token])
  | notFinished {s step token tokens reserve e s'} (h : Run start (.active s step token) tokens)
      (hrun : (step.finish reserve).run s = (.error (.error e), s')) : Run start (.idle s') tokens
  | dropped {s step token tokens} (h : Run start (.active s step token) tokens) : Run start (.idle s) tokens
  | reset {s tokens} (h : Run start (.idle s) tokens) : Run start (.idle s.reset) []

/-- `f` is a fresh session fed with `tokens`. -/
def Fed (start : Session) (tokens : List UInt32) (f : Session) : Prop :=
  ∃ last, (forwardTokens (fun _ => true) tokens).run start = (.ok last, f)

/-- A new session. -/
structure Fresh (start : Session) : Prop where
  laid : start.Laid
  position : start.position = 0
  context : start.context < 2 ^ 64

/-- What holds of a session in use. -/
def Use.Inv (start : Session) (tokens : List UInt32) : Use → Prop
  | .idle s => ∃ f, Fed start tokens f ∧ Follows start.model s f
  | .active s step token => ∃ f f', Fed start tokens f ∧ Follows start.model s f ∧
      (beginToken (fun _ => true) token >>= fun begun =>
        (List.range step.nextLayer).foldlM (fun step layer => step.layer (fun _ => true) layer) begun).run f = (.ok step, f') ∧
      During start.model f (List.range step.nextLayer) s f'

theorem Fed.grown {start : Session} {tokens : List UInt32} (h : Fed start tokens f) : Grown start f := by
  obtain ⟨last, hrun⟩ := h
  have hgrown := grown_forwardTokens (fun _ => true) tokens start
  rwa [hrun] at hgrown

theorem Fed.append {start : Session} {tokens ids : List UInt32} {logits : List F32} {f' : Session}
    (h : Fed start tokens f) (hne : ids ≠ []) (hrun : (forwardTokens (fun _ => true) ids).run f = (.ok logits, f')) :
    (forwardTokens (fun _ => true) (tokens ++ ids)).run start = (.ok logits, f') := by
  obtain ⟨last, hlast⟩ := h
  rw [forwardTokens_append tokens ids hne]
  exact Exec.bind_eq_ok.2 ⟨last, f, hlast, hrun⟩

/-- After a reset a session follows a fresh one. -/
theorem follows_reset {start s : Session} (hstart : Fresh start) (hmodel : s.model = start.model)
    (hcontext : s.context ≤ start.context) (hs : s.Laid) : Follows start.model s.reset start := by
  refine ⟨⟨hmodel, hstart.position.symm, hcontext, ⟨hs.keys, hs.values, hs.keySize, hs.valueSize⟩, hstart.laid,
    fun layer hlayer => ?_⟩, rfl⟩
  have hlt := List.mem_range.1 hlayer
  have hempty : ∀ {a b : List (List F32)}, layer < a.length → layer < b.length →
      (a[layer]?).map (List.take 0) = (b[layer]?).map (List.take 0) := by
    intro a b ha hb
    rw [List.getElem?_eq_getElem ha, List.getElem?_eq_getElem hb]
    simp
  rw [hstart.position, Nat.zero_mul]
  rw [← hmodel] at hlt
  exact ⟨hempty (hs.keys ▸ hlt) (hstart.laid.keys ▸ hmodel ▸ hlt), hempty (hs.values ▸ hlt) (hstart.laid.values ▸ hmodel ▸ hlt)⟩

theorem kept_beginToken (reserve : Nat → Bool) (token : UInt32) : Exec.Keeps Eq (beginToken reserve token) :=
  .bind (fun _ _ _ => Eq.trans) (fun _ => rfl) fun _ => .bind (fun _ _ _ => Eq.trans) (.ofExcept (fun _ => rfl) _) fun _ =>
    .bind (fun _ _ _ => Eq.trans) (.ofExcept (fun _ => rfl) _) fun _ =>
      .bind (fun _ _ _ => Eq.trans) (.ofExcept (fun _ => rfl) _) fun _ => .ofExcept (fun _ => rfl) (.ok _)

theorem finish_error {step : TokenStep} {e : Except.Fault String} {s s' : Session}
    (h : (step.finish reserve).run s = (.error e, s')) : s' = s := by
  unfold TokenStep.finish at h
  rw [Exec.run_get_bind, Exec.run_bind, Exec.run_ofExcept] at h
  split at h
  · rename_i hguard
    obtain ⟨-, rfl⟩ := Prod.mk.inj hguard
    rw [Exec.run_bind, Exec.run_ofExcept] at h
    split at h
    · cases h
    · rename_i hlogits
      obtain ⟨-, rfl⟩ := Prod.mk.inj hlogits
      exact (Prod.mk.inj h).2.symm
  · rename_i hguard
    obtain ⟨-, rfl⟩ := Prod.mk.inj hguard
    exact (Prod.mk.inj h).2.symm

theorem forwardToken_of_step {begun step : TokenStep} {logits : List F32} {f f₁ f₂ f₃ : Session}
    (hbegin : (beginToken reserve token).run f = (.ok begun, f₁))
    (hlayers : ((List.range f.model.config.blockCount).foldlM (fun step layer => TokenStep.layer reserve step layer)
      begun).run f₁ = (.ok step, f₂)) (hfinish : (step.finish reserve).run f₂ = (.ok logits, f₃)) :
    (forwardToken reserve token).run f = (.ok logits, f₃) := by
  unfold forwardToken
  rw [Exec.run_get_bind]
  exact Exec.bind_eq_ok.2 ⟨begun, f₁, hbegin, Exec.bind_eq_ok.2 ⟨step, f₂, hlayers, hfinish⟩⟩

/-- A finished step is a token of the fresh session. -/
theorem finish_inv {start s s' : Session} {step : TokenStep} {tokens : List UInt32} {logits : List F32}
    (h : (Use.active s step token).Inv start tokens) (hrun : (step.finish reserve).run s = (.ok logits, s')) :
    ∃ f, (forwardTokens (fun _ => true) (tokens ++ [token])).run start = (.ok logits, f) ∧ Follows start.model s' f := by
  obtain ⟨f, f', hfed, hfollows, hstep, hduring⟩ := h
  obtain ⟨begun, f₁, hbegin, hlayers⟩ := Exec.bind_eq_ok.1 hstep
  have hall : step.nextLayer = start.model.config.blockCount := by
    unfold TokenStep.finish at hrun
    rw [Exec.run_get_bind] at hrun
    obtain ⟨_, t, hread, -⟩ := Exec.bind_eq_ok.1 hrun
    obtain ⟨hguard, -⟩ := Prod.mk.inj hread
    rw [Except.failIf_eq_ok, not_not] at hguard
    rw [hguard, hduring.paired.agree.model, hduring.model]
  rw [hall] at hduring hlayers
  obtain ⟨f₃, hfinish, hfollows'⟩ := finish_sim step s f' hduring logits s' hrun
  refine ⟨f₃, hfed.append (List.cons_ne_nil _ _) ?_, hfollows'⟩
  rw [forwardTokens_single]
  exact forwardToken_of_step hbegin (by rw [hfollows.model]; exact hlayers) hfinish

theorem Fed.context_lt {start s : Session} {tokens : List UInt32} (hstart : Fresh start) (hfed : Fed start tokens f)
    (hfollows : Follows start.model s f) : s.context < 2 ^ 64 := by
  have := hfollows.agree.context
  have := hfed.grown.context
  have := hstart.context
  omega

theorem run_inv {start : Session} {u : Use} {tokens : List UInt32} (hstart : Fresh start) (h : Run start u tokens) :
    u.Inv start tokens := by
  have hself : Follows start.model start start :=
    ⟨⟨rfl, rfl, le_rfl, hstart.laid, hstart.laid, fun layer _ => .refl layer _ start⟩, rfl⟩
  induction h with
  | start => exact ⟨start, ⟨[], rfl⟩, hself⟩
  | @prefilled s tokens reserve ids logits s' _ hrun ih =>
    obtain ⟨f, hfed, hfollows⟩ := ih
    obtain ⟨hne, hforward⟩ := (prefill_eq_ok (hfed.context_lt hstart hfollows)).1 hrun
    obtain ⟨f', hforward', hfollows'⟩ := forwardTokens_sim ids s f hfollows logits s' hforward
    exact ⟨f', ⟨logits, hfed.append hne hforward'⟩, hfollows'⟩
  | @notPrefilled s tokens reserve ids e s' _ hrun ih =>
    obtain ⟨f, hfed, hfollows⟩ := ih
    refine ⟨f, hfed, ?_⟩
    have hgrown := grown_forwardTokens reserve ids s
    change prefill reserve ids s = _ at hrun
    unfold prefill at hrun
    split at hrun
    · cases hrun
      exact hfollows
    · split at hrun
      · cases hrun
        exact hfollows
      · split at hrun
        · cases hrun
          exact hfollows
        · split at hrun
          · cases hrun
          · rename_i hfailed
            rw [hfailed] at hgrown
            cases hrun
            exact hfollows.grown hgrown
          · cases hrun
  | @begun s tokens reserve token step s' _ hrun ih =>
    obtain ⟨f, hfed, hfollows⟩ := ih
    obtain ⟨f', hbegin, hduring, hzero⟩ := beginToken_sim s f hfollows step s' hrun
    have hs := kept_beginToken reserve token s
    have hf := kept_beginToken (fun _ => true) token f
    rw [hrun] at hs
    rw [hbegin] at hf
    obtain rfl : s = s' := hs
    obtain rfl : f = f' := hf
    exact ⟨f, f, hfed, hfollows, Exec.bind_eq_ok.2 ⟨step, f, hbegin, by rw [hzero]; rfl⟩, by rw [hzero]; exact hduring⟩
  | @notBegun s tokens reserve token e s' _ hrun ih =>
    have hs := kept_beginToken reserve token s
    rw [hrun] at hs
    obtain rfl : s = s' := hs
    exact ih
  | @layer s step token tokens reserve index step' s' _ hrun ih =>
    obtain ⟨f, f', hfed, hfollows, hstep, hduring⟩ := ih
    obtain ⟨f₂, hlayer, hduring', hindex, hnext⟩ := layer_sim step index s f' hduring step' s' hrun
    have hkeeps := uncommitted_layer reserve step index s
    rw [hrun] at hkeeps
    subst hindex
    refine ⟨f, f₂, hfed, hfollows.uncommitted hkeeps, ?_, ?_⟩
    · obtain ⟨begun, f₁, hbegin, hlayers⟩ := Exec.bind_eq_ok.1 hstep
      refine Exec.bind_eq_ok.2 ⟨begun, f₁, hbegin, ?_⟩
      rw [hnext, List.range_succ, List.foldlM_append]
      refine Exec.bind_eq_ok.2 ⟨step, f', hlayers, ?_⟩
      simpa using hlayer
    · rw [hnext, List.range_succ]
      exact hduring'
  | @notLayer s step token tokens reserve index e s' _ hrun ih =>
    obtain ⟨f, f', hfed, hfollows, -⟩ := ih
    have hkeeps := uncommitted_layer reserve step index s
    rw [hrun] at hkeeps
    exact ⟨f, hfed, hfollows.uncommitted hkeeps⟩
  | @finished s step token tokens reserve logits s' _ hrun ih =>
    obtain ⟨f, hforward, hfollows⟩ := finish_inv ih hrun
    exact ⟨f, ⟨logits, hforward⟩, hfollows⟩
  | @notFinished s step token tokens reserve e s' _ hrun ih =>
    obtain ⟨f, f', hfed, hfollows, -⟩ := ih
    obtain rfl := finish_error hrun
    exact ⟨f, hfed, hfollows⟩
  | dropped _ ih =>
    obtain ⟨f, f', hfed, hfollows, -⟩ := ih
    exact ⟨f, hfed, hfollows⟩
  | @reset s tokens _ ih =>
    obtain ⟨f, hfed, hfollows⟩ := ih
    have hagree := hfollows.agree
    refine ⟨start, ⟨[], rfl⟩, follows_reset hstart (hagree.model.trans hfollows.model) ?_ hagree.left⟩
    exact hagree.context.trans hfed.grown.context.le

theorem fresh_session {reserve : Nat → Bool} {context maximumBytes : Nat} {start : Session}
    (h : m.sessionWithMemoryLimit reserve context maximumBytes = .ok start) :
    Fresh start ∧ start.model = m ∧ start.context = context := by
  obtain ⟨_, -, h⟩ := Except.bind_eq_ok.1 h
  obtain ⟨_, -, h⟩ := Except.bind_eq_ok.1 h
  obtain ⟨_, -, h⟩ := Except.bind_eq_ok.1 h
  obtain ⟨perLayer, hperLayer, h⟩ := Except.bind_eq_ok.1 h
  obtain ⟨_, -, h⟩ := Except.bind_eq_ok.1 h
  obtain ⟨_, -, h⟩ := Except.bind_eq_ok.1 h
  obtain rfl := Except.pure_eq_ok.1 h
  have hsize : perLayer = context * m.config.kvWidth ∧ context * m.config.kvWidth < 2 ^ 64 := by
    rw [Except.okOr_eq_ok] at hperLayer
    unfold checkedMul at hperLayer
    split at hperLayer
    · rename_i hlt
      exact ⟨(Option.some.inj hperLayer).symm, hlt⟩
    · cases hperLayer
  have hbuffers : ∀ b ∈ List.replicate m.config.blockCount (List.replicate perLayer (⟨0⟩ : F32)),
      b.length = context * m.config.kvWidth := by
    intro b hb
    rw [(List.mem_replicate.1 hb).2, List.length_replicate, hsize.1]
  refine ⟨⟨⟨List.length_replicate, List.length_replicate, hbuffers, hbuffers⟩, rfl, ?_⟩, rfl, rfl⟩
  calc context = context * 1 := (Nat.mul_one _).symm
    _ ≤ context * m.config.kvWidth := Nat.mul_le_mul_left _ m.config.kvWidth_pos
    _ < 2 ^ 64 := hsize.2

/-- A fed session and the fresh one return the same logits. -/
theorem Fed.prefill {start f' : Session} {tokens ids : List UInt32} {logits : List F32} (h : Fed start tokens f)
    (hstart : Fresh start) (hne : ids ≠ []) (hrun : (forwardTokens (fun _ => true) ids).run f = (.ok logits, f')) :
    ((Session.prefill (fun _ => true) (tokens ++ ids)).run start).1 = .ok logits := by
  have hall := h.append hne hrun
  rw [(prefill_eq_ok hstart.context).2 ⟨List.append_ne_nil_of_right_ne_nil _ hne, hall⟩]

theorem run_context_lt {start s : Session} {tokens : List UInt32} (hstart : Fresh start) (h : Run start (.idle s) tokens) :
    s.context < 2 ^ 64 := by
  obtain ⟨f, hfed, hfollows⟩ := run_inv hstart h
  exact hfed.context_lt hstart hfollows

/-- The logits of a prefill are those of a fresh session fed with the tokens committed since the last reset. -/
theorem prefill_eq_fresh {start s s' : Session} {tokens ids : List UInt32} {logits : List F32} (hstart : Fresh start)
    (h : Run start (.idle s) tokens) (hrun : (prefill reserve ids).run s = (.ok logits, s')) :
    ((prefill (fun _ => true) (tokens ++ ids)).run start).1 = .ok logits := by
  obtain ⟨f, hfed, hfollows⟩ := run_inv hstart h
  obtain ⟨hne, hforward⟩ := (prefill_eq_ok (hfed.context_lt hstart hfollows)).1 hrun
  obtain ⟨f', hforward', -⟩ := forwardTokens_sim ids s f hfollows logits s' hforward
  exact hfed.prefill hstart hne hforward'

theorem finish_eq_fresh {start s s' : Session} {step : TokenStep} {tokens : List UInt32} {logits : List F32}
    (hstart : Fresh start) (h : Run start (.active s step token) tokens)
    (hrun : (step.finish reserve).run s = (.ok logits, s')) :
    ((prefill (fun _ => true) (tokens ++ [token])).run start).1 = .ok logits := by
  obtain ⟨f, hforward, -⟩ := finish_inv (run_inv hstart h) hrun
  rw [(prefill_eq_ok hstart.context).2 ⟨List.append_ne_nil_of_right_ne_nil _ (List.cons_ne_nil _ _), hforward⟩]

end Session

end Inference
end BmlSys
