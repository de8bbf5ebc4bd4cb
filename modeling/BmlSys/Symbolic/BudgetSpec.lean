import BmlSys.Symbolic.Budget
import BmlSys.Transformer.BoundedRms
import BmlSys.Transformer.Size

/-!
# The budget is the size

A builder that accepts its operands appends a number of nodes that depends on the operation and the width only, and for vectors it is
affine in the width. So what the probes measure is what the construction builds, and the late checks of the compiler never fail.
-/

namespace BmlSys
namespace Symbolic
open Except Transformer

/-! ### Operands -/

/-- Every operand is a node of the table. -/
def Named (g : NodeSoA) (ids : List NodeId) : Prop := ∀ id ∈ ids, id.toNat < g.nodes.length

theorem Named.mono {g g' : NodeSoA} {ids : List NodeId} (h : Named g ids) (hle : g.nodes.length ≤ g'.nodes.length) : Named g' ids :=
  fun id hid => (h id hid).trans_le hle

theorem named_push (node : Node) (g : NodeSoA) : (push node g).1.toNat < (push node g).2.nodes.length := by
  show (UInt32.ofNat g.nodes.length).toNat < (g.nodes ++ [node]).length
  rw [UInt32.toNat_ofNat', List.length_append, List.length_singleton]
  exact Nat.lt_succ_of_le (Nat.mod_le _ _)

theorem named_mapM_push (node : Nat → Node) (l : List Nat) (g : NodeSoA) :
    Named ((l.mapM fun i => push (node i)) g).2 ((l.mapM fun i => push (node i)) g).1 := by
  induction l generalizing g with
  | nil => exact fun _ h => (nomatch h)
  | cons i l ih =>
    have hrest := ih (push (node i) g).2
    have hsize := Sized.mapM (l := l) (fun i => sized_push (node i)) (push (node i) g).2
    have hrun : ((i :: l).mapM fun i => push (node i)) g =
        ((push (node i) g).1 :: ((l.mapM fun i => push (node i)) (push (node i) g).2).1,
          ((l.mapM fun i => push (node i)) (push (node i) g).2).2) := by
      rw [List.mapM_cons]
      rfl
    rw [hrun]
    rintro id (_ | ⟨_, hid⟩)
    · refine (named_push (node i) g).trans_le ?_
      show _ ≤ ((l.mapM fun i => push (node i)) (push (node i) g).2).2.nodes.length
      omega
    · exact hrest id hid

theorem sized_inputs (width : Nat) : Sized (inputs width) width 0 fun ids => ids.length = width := by
  have h := Sized.mapM (l := List.range width) fun i => sized_push (.var (.ofNat i))
  rw [List.length_range, Nat.mul_one] at h
  exact h

theorem sized_externals (width : Nat) : Sized (externals width) width 0 fun ids => ids.length = width := by
  have h := Sized.mapM (l := List.range width) fun i => sized_push (.const (.ofNat i))
  rw [List.length_range, Nat.mul_one] at h
  exact h

theorem checkNodes_eq_ok {ids : List NodeId} {g : NodeSoA} (h : Named g ids) : checkNodes ids g = .ok () := by
  have hnone : ids.find? (fun id => g.nodes.length ≤ id.toNat) = none := by
    rw [List.find?_eq_none]
    intro id hid
    simpa using h id hid
  rw [checkNodes, hnone]
  rfl

theorem run_checkOperands {β : Type} {ids : List NodeId} {g : NodeSoA} (h : Named g ids) (k : BuildOperation β) :
    (checkOperands ids >>= fun _ => k).run g = k.run g := by
  have hnone : ids.find? (fun id => g.nodes.length ≤ id.toNat) = none := by
    rw [List.find?_eq_none]
    intro id hid
    simpa using h id hid
  rw [run_checkOperands_bind, hnone]

/-! ### Operations on their own operands -/

section
variable {g : NodeSoA} {xs ws : List NodeId} {epsilon : F64}

theorem run_rmsNorm (hx : Named g xs) (hw : Named g ws) (hlen : xs.length = ws.length) (hne : xs ≠ [])
    (hε : epsilon.isFinite = true ∧ 0 < epsilon.toRat) :
    ∃ roots g', (rmsNorm xs ws epsilon).run g = (.ok roots, g') ∧ g'.nodes.length = g.nodes.length + rmsSize xs.length := by
  have hshape : ¬ (xs = [] ∨ xs.length ≠ ws.length) := not_or.2 ⟨hne, not_not_intro hlen⟩
  have hvalid : ¬ (epsilon.isFinite = false ∨ epsilon.toRat ≤ 0) :=
    not_or.2 ⟨by rw [hε.1]; exact nofun, not_le.2 hε.2⟩
  rw [rmsNorm, run_failWhen_bind, if_neg hshape, run_failWhen_bind, if_neg hvalid, run_checkOperands hx, run_checkOperands hw]
  exact ⟨_, _, run_lift _ _, (sized_rmsEntries epsilon hne hlen g).1⟩

theorem run_softmax (hx : Named g xs) (hne : xs ≠ []) :
    ∃ roots g', (Transformer.softmax xs).run g = (.ok roots, g') ∧ g'.nodes.length = g.nodes.length + softmaxSize xs.length := by
  rw [Transformer.softmax, run_failWhen_bind, if_neg hne, run_checkOperands hx]
  exact ⟨_, _, run_lift _ _, (sized_softmaxEntries hne g).1⟩

theorem run_rope {cos sin : List NodeId} (hx : Named g xs) (hcos : Named g cos) (hsin : Named g sin) (hxs : xs.length = 2)
    (hcosLen : cos.length = 1) (hsinLen : sin.length = 1) :
    ∃ roots g', (Transformer.rope xs cos sin).run g = (.ok roots, g') ∧ g'.nodes.length = g.nodes.length + 842 := by
  have hshape : ¬ (xs.length % 2 ≠ 0 ∨ cos.length ≠ xs.length / 2 ∨ sin.length ≠ cos.length) := by omega
  have hpairs : ((pairs xs).zip (cos.zip sin)).length = 1 := by
    rw [List.length_zip, List.length_zip, length_pairs, hxs, hcosLen, hsinLen]
    rfl
  rw [Transformer.rope, run_failWhen_bind, if_neg hshape, run_checkOperands hx, run_checkOperands hcos, run_checkOperands hsin]
  exact ⟨_, _, run_lift _ _, (sized_ropeEntries hpairs g).1⟩

theorem run_swiglu (hx : Named g xs) (hw : Named g ws) (hxs : xs.length = 1) (hws : ws.length = 1) :
    ∃ roots g', (Transformer.swiglu xs ws).run g = (.ok roots, g') ∧ g'.nodes.length = g.nodes.length + 418 := by
  have hzip : (xs.zip ws).length = 1 := by rw [List.length_zip, hxs, hws, Nat.min_self]
  rw [Transformer.swiglu, run_failWhen_bind, if_neg (not_not_intro (hxs.trans hws.symm)), run_checkOperands hx, run_checkOperands hw]
  exact ⟨_, _, run_lift _ _, (sized_swigluEntries hzip g).1⟩

theorem rmsNorm_error (h : ¬ (xs ≠ [] ∧ epsilon.isFinite = true ∧ 0 < epsilon.toRat)) :
    ∃ e, (rmsNorm xs ws epsilon).run g = (.error e, g) := by
  rw [rmsNorm, run_failWhen_bind]
  split
  · exact ⟨_, rfl⟩
  · rename_i hshape
    rw [run_failWhen_bind, if_pos]
    · exact ⟨_, rfl⟩
    · by_contra hvalid
      obtain ⟨hfinite, hpos⟩ := not_or.1 hvalid
      exact h ⟨fun hnil => hshape (.inl hnil), eq_true_of_ne_false hfinite, not_le.1 hpos⟩

theorem rmsNormBounded_eq (reserve : Nat → Bool) {config : BoundedRmsConfig} (hx : Named g xs) (hw : Named g ws)
    (hxs : xs.length = config.width) (hws : ws.length = config.width) (hwidth : config.width ≤ 65025)
    (hnodes : g.nodes.length = config.width + config.width) (hpool : g.constPool.length = 0) :
    if reserve config.width = true then ∃ r, rmsNormBounded reserve xs ws config g = .ok r ∧
      r.2.nodes.length = g.nodes.length + rmsBoundedSize config.width
    else rmsNormBounded reserve xs ws config g = .error .allocation := by
  have hoperands : Named g (xs ++ ws) := fun id hid => (List.mem_append.1 hid).elim (hx id) (hw id)
  have hshape : ¬ (xs.length ≠ config.width ∨ ws.length ≠ config.width) := not_or.2 ⟨not_not_intro hxs, not_not_intro hws⟩
  have hmul : checkedMul config.width 4096 = some (config.width * 4096) := checkedMul_eq_some.2 ⟨by omega, rfl⟩
  have hadd : checkedAdd (config.width * 4096) 16384 = some (config.width * 4096 + 16384) := checkedAdd_eq_some.2 ⟨by omega, rfl⟩
  have hsum : checkedAdd (config.width * 4096 + 16384) g.nodes.length = some (config.width * 4096 + 16384 + g.nodes.length) :=
    checkedAdd_eq_some.2 ⟨by omega, rfl⟩
  have hroom : ¬ (2 ^ 32 - 1 < config.width * 4096 + 16384 + g.nodes.length ∨ 2 ^ 32 - 1 - 17 < g.constPool.length) := by omega
  rw [rmsNormBounded, (failIf_eq_ok (u := ())).2 hshape, ok_bind', checkNodes_eq_ok hoperands, ok_bind', okOr_eq_ok.2 hmul, ok_bind',
    okOr_eq_ok.2 hadd, ok_bind', okOr_eq_ok.2 hsum, ok_bind', (failIf_eq_ok (u := ())).2 hroom, ok_bind']
  split
  · rename_i hreserve
    have hallowed : ¬ reserve config.width = false := by simp [hreserve]
    rw [(failIf_eq_ok (u := ())).2 hallowed, ok_bind']
    have hsize := (sized_rmsBoundedEntries config (hxs.trans hws.symm) g).1
    rw [hxs] at hsize
    exact ⟨_, rfl, hsize⟩
  · rename_i hreserve
    rw [failIf, if_pos (eq_false_of_ne_true hreserve)]
    rfl

end

/-! ### Sizes of whole graphs -/

/-- The nodes of a graph with its operands. -/
def dagSize (op : Operation) (bounds : Option RmsBounds) (width : Nat) : Nat :=
  match op, bounds with
  | .norm, some _ => width + width + rmsBoundedSize width
  | .norm, none => width + width + rmsSize width
  | .softmax, _ => width + softmaxSize width
  | .rope, _ => 846
  | .swiglu, _ => 420
  | .add, _ => 23
  | .scale, _ => 84
  | _, _ => 0

/-- When the graph is built. -/
def Accepts (reserve : Nat → Bool) (op : Operation) (epsilon : F64) (bounds : Option RmsBounds) (width : Nat) : Prop :=
  match op, bounds with
  | .norm, some bounds => (∃ config, bounds.config width epsilon = .ok config) ∧ reserve width = true
  | .norm, none => width ≠ 0 ∧ epsilon.isFinite = true ∧ 0 < epsilon.toRat
  | .softmax, _ => width ≠ 0
  | .rope, _ | .swiglu, _ | .add, _ | .scale, _ => True
  | _, _ => False

/-- A failure other than those of the late checks. -/
def Expected (e : Fault KernelError) : Prop :=
  e ≠ .panic ∧ e ≠ rejected "symbolic vector node construction is not affine" ∧ e ≠ rejected "symbolic construction node count changed"

/-- How a builder ends that appends `n` nodes when `c` holds. -/
def Counts {α : Type} (m : Exec (Fault KernelError) NodeSoA α) (c : Prop) (n : Nat) : Prop :=
  (c ∧ (∃ a, (m.run {}).1 = .ok a) ∧ (m.run {}).2.nodes.length = n) ∨
    (¬ c ∧ (∃ e, (m.run {}).1 = .error e ∧ Expected e) ∧ (m.run {}).2.nodes.length ≤ n)

theorem counts_build {α : Type} {m : Build α} {n c : Nat} {Q : α → Prop} (h : Sized m n c Q) :
    Counts (liftM m : Exec (Fault KernelError) NodeSoA α) True n :=
  .inl ⟨trivial, ⟨_, rfl⟩, (h {}).1.trans (Nat.zero_add n)⟩

theorem expected_operation (e : OperationBuildError) : Expected (.error (.operation e)) := ⟨nofun, nofun, nofun⟩

theorem expected_bounded (e : BoundedBuildError) : Expected (.error (.bounded e)) := ⟨nofun, nofun, nofun⟩

section
variable {α β : Type} {g g' : NodeSoA}

theorem run_build_bind (m : Build α) (f : α → Exec (Fault KernelError) NodeSoA β) (g : NodeSoA) :
    ((liftM m : Exec (Fault KernelError) NodeSoA α) >>= f).run g = (f (m g).1).run (m g).2 := rfl

theorem run_operationText {m : BuildOperation α} {a : α} (h : m.run g = (.ok a, g')) : (operationText m).run g = (.ok a, g') := by
  show ((m.run g).1.mapError _, (m.run g).2) = _
  rw [h]
  rfl

theorem run_operationText_error {m : BuildOperation α} {e : OperationBuildError} (h : m.run g = (.error e, g')) :
    (operationText m).run g = (.error (.error (.operation e)), g') := by
  show ((m.run g).1.mapError _, (m.run g).2) = _
  rw [h]
  rfl

theorem run_boundedRoots {f : NodeSoA → Except BoundedBuildError (α × NodeSoA)} {a : α} (h : f g = .ok (a, g')) :
    (boundedRoots f).run g = (.ok a, g') := by
  show boundedRoots f g = _
  simp only [boundedRoots, h]

theorem run_boundedRoots_error {f : NodeSoA → Except BoundedBuildError (α × NodeSoA)} {e : BoundedBuildError} (h : f g = .error e) :
    (boundedRoots f).run g = (.error (.error (.bounded e)), g) := by
  show boundedRoots f g = _
  simp only [boundedRoots, h]

end

theorem Counts.ok {α : Type} {m : Exec (Fault KernelError) NodeSoA α} {c : Prop} {n : Nat} {a : α} {g : NodeSoA}
    (hrun : m.run {} = (.ok a, g)) (hc : c) (hn : g.nodes.length = n) : Counts m c n :=
  .inl ⟨hc, ⟨a, by rw [hrun]⟩, by rw [hrun, hn]⟩

theorem Counts.error {α : Type} {m : Exec (Fault KernelError) NodeSoA α} {c : Prop} {n : Nat} {e : Fault KernelError} {g : NodeSoA}
    (hrun : m.run {} = (.error e, g)) (hc : ¬ c) (he : Expected e) (hn : g.nodes.length ≤ n) : Counts m c n :=
  .inr ⟨hc, ⟨e, by rw [hrun], he⟩, by rw [hrun]; exact hn⟩

/-- Operands of a vector operation, in a table of their own. -/
theorem run_operands (width : Nat) : ∃ xs ws g, Named g xs ∧ Named g ws ∧ xs.length = width ∧ ws.length = width ∧
    g.nodes.length = width + width ∧ g.constPool.length = 0 ∧
    ∀ {β : Type} (f : List NodeId → List NodeId → Exec (Fault KernelError) NodeSoA β),
      (do let x ← inputs width; let weights ← externals width; f x weights : Exec (Fault KernelError) NodeSoA β).run {} =
        (f xs ws).run g := by
  obtain ⟨hn, hc, hlen⟩ := sized_inputs width {}
  obtain ⟨hn', hc', hlen'⟩ := sized_externals width (inputs width {}).2
  have hx : Named (inputs width {}).2 (inputs width {}).1 := named_mapM_push (fun i => .var (.ofNat i)) _ _
  have hw : Named (externals width (inputs width {}).2).2 (externals width (inputs width {}).2).1 :=
    named_mapM_push (fun i => .const (.ofNat i)) _ _
  have hn : (inputs width {}).2.nodes.length = width := hn.trans (Nat.zero_add width)
  refine ⟨_, _, _, hx.mono ?_, hw, hlen, hlen', ?_, hc'.trans hc, fun f => rfl⟩
  · omega
  · omega

theorem counts_norm (reserve : Nat → Bool) (width : Nat) (epsilon : F64) :
    Counts (dagRoots reserve .norm width epsilon none) (Accepts reserve .norm epsilon none width) (dagSize .norm none width) := by
  obtain ⟨xs, ws, g, hx, hw, hxs, hws, hnodes, -, hrun⟩ := run_operands width
  have hne : xs ≠ [] ↔ width ≠ 0 := by rw [← hxs, ← List.length_pos_iff_ne_nil, Nat.pos_iff_ne_zero]
  have hdag : (dagRoots reserve .norm width epsilon none).run {} =
      (operationText (rmsNorm xs ws epsilon) >>= fun roots => pure (roots, ws)).run g := hrun _
  by_cases h : width ≠ 0 ∧ epsilon.isFinite = true ∧ 0 < epsilon.toRat
  · obtain ⟨roots, g', hok, hsize⟩ := run_rmsNorm hx hw (hxs.trans hws.symm) (hne.2 h.1) h.2
    refine .ok (hdag.trans (Exec.run_bind_ok (run_operationText hok) _)) h ?_
    rw [hsize, hnodes, hxs]
    rfl
  · obtain ⟨e, he⟩ : ∃ e, (rmsNorm xs ws epsilon).run g = (.error e, g) := rmsNorm_error fun hc => h ⟨hne.1 hc.1, hc.2⟩
    refine .error (hdag.trans (Exec.run_bind_error (run_operationText_error he) _)) h (expected_operation e) ?_
    exact hnodes.le.trans (Nat.le_add_right _ _)

theorem counts_normBounded (reserve : Nat → Bool) (width : Nat) (epsilon : F64) (bounds : RmsBounds) :
    Counts (dagRoots reserve .norm width epsilon (some bounds)) (Accepts reserve .norm epsilon (some bounds) width)
      (dagSize .norm (some bounds) width) := by
  obtain ⟨xs, ws, g, hx, hw, hxs, hws, hnodes, hpool, hrun⟩ := run_operands width
  have hdag : (dagRoots reserve .norm width epsilon (some bounds)).run {} = (do
      let config ← Exec.ofExcept (bounds.config width epsilon)
      let roots ← boundedRoots (rmsNormBounded reserve xs ws config)
      pure (roots, ws) : Exec (Fault KernelError) NodeSoA _).run g := hrun _
  have hle : g.nodes.length ≤ dagSize .norm (some bounds) width := hnodes.le.trans (Nat.le_add_right _ _)
  cases hconfig : BoundedRmsConfig.new width epsilon bounds.input bounds.weight with
  | error e =>
    have hc : bounds.config width epsilon = .error (.error (.bounded e)) := by rw [RmsBounds.config, hconfig]; rfl
    have hrun' : (Exec.ofExcept (bounds.config width epsilon) : Exec (Fault KernelError) NodeSoA _).run g =
        (.error (.error (.bounded e)), g) := by rw [Exec.run_ofExcept, hc]
    refine .error (hdag.trans (Exec.run_bind_error hrun' _)) ?_ (expected_bounded e) hle
    rintro ⟨⟨config, h⟩, -⟩
    exact nomatch hc.symm.trans h
  | ok config =>
    have hc : bounds.config width epsilon = .ok config := by rw [RmsBounds.config, hconfig]; rfl
    obtain ⟨hb, hwidth, -⟩ := BoundedRmsConfig.bounds hconfig
    have heq := rmsNormBounded_eq reserve hx hw (hxs.trans hwidth.symm) (hws.trans hwidth.symm) hb.width.2
      (by rw [hnodes, hwidth]) hpool
    have hdag := hdag.trans (Exec.run_ofExcept_bind hc _ g)
    rw [hwidth] at heq
    split at heq
    · rename_i hreserve
      obtain ⟨⟨roots, g'⟩, hok, hsize⟩ := heq
      refine .ok (hdag.trans (Exec.run_bind_ok (run_boundedRoots hok) _)) ⟨⟨config, hc⟩, hreserve⟩ ?_
      rw [hsize, hnodes]
      rfl
    · rename_i hreserve
      exact .error (hdag.trans (Exec.run_bind_error (run_boundedRoots_error heq) _)) (fun h => hreserve h.2) (expected_bounded _) hle

theorem counts_softmax (reserve : Nat → Bool) (width : Nat) (epsilon : F64) (bounds : Option RmsBounds) :
    Counts (dagRoots reserve .softmax width epsilon bounds) (width ≠ 0) (dagSize .softmax bounds width) := by
  obtain ⟨hn, -, hlen⟩ := sized_inputs width {}
  have hx : Named (inputs width {}).2 (inputs width {}).1 := named_mapM_push (fun i => .var (.ofNat i)) _ _
  have hn : (inputs width {}).2.nodes.length = width := hn.trans (Nat.zero_add width)
  have hdag : (dagRoots reserve .softmax width epsilon bounds).run {} =
      (operationText (Transformer.softmax (inputs width {}).1) >>= fun roots => pure (roots, [])).run (inputs width {}).2 := rfl
  generalize (inputs width {}).1 = xs at *
  generalize (inputs width {}).2 = g at *
  have hne : xs ≠ [] ↔ width ≠ 0 := by rw [← hlen, ← List.length_pos_iff_ne_nil, Nat.pos_iff_ne_zero]
  by_cases h : width ≠ 0
  · obtain ⟨roots, g', hok, hsize⟩ := run_softmax hx (hne.2 h)
    refine .ok (hdag.trans (Exec.run_bind_ok (run_operationText hok) _)) h ?_
    rw [hsize, hn, hlen]
    rfl
  · have he : (Transformer.softmax xs).run g = (.error .shape, g) := by
      rw [Transformer.softmax, run_failWhen_bind, if_pos (not_not.1 (mt hne.1 h))]
    refine .error (hdag.trans (Exec.run_bind_error (run_operationText_error he) _)) h (expected_operation .shape) ?_
    exact hn.le.trans (Nat.le_add_right _ _)

theorem counts_rope (reserve : Nat → Bool) (width : Nat) (epsilon : F64) (bounds : Option RmsBounds) :
    Counts (dagRoots reserve .rope width epsilon bounds) True 846 := by
  obtain ⟨g, hg, hdag⟩ : ∃ g : NodeSoA, g.nodes.length = 4 ∧ (dagRoots reserve .rope width epsilon bounds).run {} =
      (operationText (Transformer.rope [0, 1] [2] [3]) >>= fun roots => pure (roots, [2, 3])).run g := by
    refine ⟨{ nodes := [.var 0, .var 1, .const 0, .const 1] }, rfl, ?_⟩
    simp only [dagRoots]
    rw [run_build_bind, run_build_bind, run_build_bind, run_build_bind]
    rfl
  have hnamed (ids : List NodeId) (h : ∀ id ∈ ids, id.toNat < 4) : Named g ids := fun id hid => hg ▸ h id hid
  obtain ⟨roots, g', hok, hsize⟩ := run_rope (hnamed [0, 1] (by simp)) (hnamed [2] (by simp)) (hnamed [3] (by simp)) rfl rfl rfl
  refine .ok (hdag.trans (Exec.run_bind_ok (run_operationText hok) _)) trivial ?_
  rw [hsize, hg]

theorem counts_swiglu (reserve : Nat → Bool) (width : Nat) (epsilon : F64) (bounds : Option RmsBounds) :
    Counts (dagRoots reserve .swiglu width epsilon bounds) True 420 := by
  obtain ⟨g, hg, hdag⟩ : ∃ g : NodeSoA, g.nodes.length = 2 ∧ (dagRoots reserve .swiglu width epsilon bounds).run {} =
      (operationText (Transformer.swiglu [0] [1]) >>= fun roots => pure (roots, [])).run g := by
    refine ⟨{ nodes := [.var 0, .var 1] }, rfl, ?_⟩
    simp only [dagRoots]
    rw [run_build_bind, run_build_bind]
    rfl
  have hnamed (ids : List NodeId) (h : ∀ id ∈ ids, id.toNat < 2) : Named g ids := fun id hid => hg ▸ h id hid
  obtain ⟨roots, g', hok, hsize⟩ := run_swiglu (hnamed [0] (by simp)) (hnamed [1] (by simp)) rfl rfl
  refine .ok (hdag.trans (Exec.run_bind_ok (run_operationText hok) _)) trivial ?_
  rw [hsize, hg]

theorem counts_dagRoots (reserve : Nat → Bool) (op : Operation) (width : Nat) (epsilon : F64) (bounds : Option RmsBounds) :
    Counts (dagRoots reserve op width epsilon bounds) (Accepts reserve op epsilon bounds width) (dagSize op bounds width) := by
  cases op with
  | norm =>
    cases bounds with
    | none => exact counts_norm reserve width epsilon
    | some bounds => exact counts_normBounded reserve width epsilon bounds
  | softmax => exact counts_softmax reserve width epsilon bounds
  | rope => exact counts_rope reserve width epsilon bounds
  | swiglu => exact counts_swiglu reserve width epsilon bounds
  | add =>
    have h : Sized (do let x ← var 0; let y ← var 1; let root ← Transformer.add x y; Pure.pure ([root], []) :
        Build (List NodeId × List NodeId)) 23 0 fun _ => True :=
      Sized.cast ((sized_push _).bind fun _ _ => (sized_push _).bind fun _ _ => (sized_add _ _).bind fun _ _ => .pure trivial) rfl rfl
    exact counts_build h
  | scale =>
    have h : Sized (do let x ← var 0; let y ← var 1; let root ← scaleSigned x y; Pure.pure ([root], []) :
        Build (List NodeId × List NodeId)) 84 0 fun _ => True :=
      Sized.cast ((sized_push _).bind fun _ _ => (sized_push _).bind fun _ _ => (sized_scaleSigned _ _).bind fun _ _ => .pure trivial)
        rfl rfl
    exact counts_build h
  | dot | downDot | attentionDot | weightedSum => exact .inr ⟨id, ⟨_, rfl, nofun, nofun, nofun⟩, le_rfl⟩

/-! ### The preflight -/

section
variable {reserve : Nat → Bool} {op : Operation} {width : Nat} {epsilon : F64} {bounds : Option RmsBounds}

/-- The sizes of vector graphs are affine in the width. -/
theorem dagSize_affine (bounds : Option RmsBounds) {width : Nat} (hop : op = .norm ∨ op = .softmax) (hwidth : 1 ≤ width) :
    dagSize op bounds width = (width - 1) * (dagSize op bounds 2 - dagSize op bounds 1) + dagSize op bounds 1 := by
  obtain ⟨n, rfl⟩ : ∃ n, width = n + 1 := ⟨width - 1, by omega⟩
  rcases hop with rfl | rfl
  · cases bounds with
    | none =>
      simp only [dagSize, rmsSize]
      omega
    | some bounds =>
      simp only [dagSize, rmsBoundedSize]
      omega
  · simp only [dagSize, softmaxSize]
    omega

theorem dagSize_mono (bounds : Option RmsBounds) (hop : op = .norm ∨ op = .softmax) : dagSize op bounds 1 ≤ dagSize op bounds 2 := by
  rcases hop with rfl | rfl
  · cases bounds <;> simp [dagSize, rmsSize, rmsBoundedSize]
  · simp [dagSize, softmaxSize]

/-- No probe is larger. -/
def probeSize : Nat := 2986

theorem dagSize_le_probeSize (op : Operation) (width : Nat) (bounds : Option RmsBounds) (h : width ≤ 3 ∨ ¬ (op = .norm ∨ op = .softmax)) : dagSize op bounds width ≤ probeSize := by
  cases op with
  | norm =>
    have hle : width ≤ 3 := h.resolve_right (not_not_intro (.inl rfl))
    cases bounds with
    | none =>
      simp only [dagSize, rmsSize, probeSize]
      omega
    | some bounds =>
      simp only [dagSize, rmsBoundedSize, probeSize]
      omega
  | softmax =>
    have hle : width ≤ 3 := h.resolve_right (not_not_intro (.inr rfl))
    simp only [dagSize, softmaxSize, probeSize]
    omega
  | rope | swiglu | add | scale => simp [dagSize, probeSize]
  | dot | downDot | attentionDot | weightedSum => simp [dagSize, probeSize]

/-- What a construction returns and lists. -/
theorem run_buildDag (reserve : Nat → Bool) (op : Operation) (width : Nat) (epsilon : F64) (bounds : Option RmsBounds) :
    (Accepts reserve op epsilon bounds width ∧ ∃ dag, dag.soa.nodes.length = dagSize op bounds width ∧
      ∀ sizes, (buildDag reserve op width epsilon bounds).run sizes = (.ok dag, sizes ++ [dagSize op bounds width])) ∨
    (¬ Accepts reserve op epsilon bounds width ∧ ∃ e n, Expected e ∧ n ≤ dagSize op bounds width ∧
      ∀ sizes, (buildDag reserve op width epsilon bounds).run sizes = (.error e, sizes ++ [n])) := by
  have hbuilt (sizes : List Nat) : (built (dagRoots reserve op width epsilon bounds)).run sizes =
      (((dagRoots reserve op width epsilon bounds).run {}).1.map fun a => (a, ((dagRoots reserve op width epsilon bounds).run {}).2),
        sizes ++ [((dagRoots reserve op width epsilon bounds).run {}).2.nodes.length]) := rfl
  rcases counts_dagRoots reserve op width epsilon bounds with ⟨haccepts, ⟨⟨roots, weights⟩, hok⟩, hlen⟩ | ⟨hrejects, ⟨e, herr, he⟩, hle⟩
  · refine .inl ⟨haccepts, ⟨_, roots, weights⟩, hlen, fun sizes => ?_⟩
    have hrun := hbuilt sizes
    rw [hok, hlen] at hrun
    exact Exec.run_bind_ok hrun _
  · refine .inr ⟨hrejects, e, _, he, hle, fun sizes => ?_⟩
    have hrun := hbuilt sizes
    rw [herr] at hrun
    exact Exec.run_bind_error hrun _

/-- The probes of a vector operation give its size at every width. -/
theorem run_requiredNodes (hop : op = .norm ∨ op = .softmax) (hwidth : 1 ≤ width)
    (h : ∀ n ∈ [1, 2, 3], Accepts reserve op epsilon bounds n) (sizes : List Nat) :
    (requiredNodes reserve op width epsilon bounds).run sizes =
      (if dagSize op bounds width < 2 ^ 64 then .ok (dagSize op bounds width) else .error (rejected "symbolic node size overflow"),
        sizes ++ [dagSize op bounds 1, dagSize op bounds 2, dagSize op bounds 3]) := by
  have hbuilds (n : Nat) (hn : n ∈ [1, 2, 3]) : ∃ dag, dag.soa.nodes.length = dagSize op bounds n ∧
      ∀ sizes, (buildDag reserve op n epsilon bounds).run sizes = (.ok dag, sizes ++ [dagSize op bounds n]) :=
    (run_buildDag reserve op n epsilon bounds).elim (fun hb => hb.2) fun hb => absurd (h n hn) hb.1
  obtain ⟨one, hone, hrun₁⟩ := hbuilds 1 (by simp)
  obtain ⟨two, htwo, hrun₂⟩ := hbuilds 2 (by simp)
  obtain ⟨three, hthree, hrun₃⟩ := hbuilds 3 (by simp)
  have hle := dagSize_mono bounds hop
  have haffine := dagSize_affine bounds hop hwidth
  have haffine₃ := dagSize_affine bounds hop (show 1 ≤ 3 by omega)
  have hsub : checkedSub two.soa.nodes.length one.soa.nodes.length = some (dagSize op bounds 2 - dagSize op bounds 1) := by
    rw [hone, htwo, checkedSub, if_pos hle]
  have hsub₃ : checkedSub three.soa.nodes.length two.soa.nodes.length = some (dagSize op bounds 2 - dagSize op bounds 1) := by
    rw [htwo, hthree, checkedSub, if_pos (by omega)]
    exact congrArg some (by omega)
  rw [requiredNodes, if_pos hop, Exec.run_bind_ok (hrun₁ sizes), Exec.run_bind_ok (hrun₂ _), Exec.run_bind_ok (hrun₃ _),
    Exec.run_ofExcept_bind (okOr_eq_ok.2 hsub), Exec.run_ofExcept_bind ((failIf_eq_ok (u := ())).2 (not_not_intro hsub₃)),
    Exec.run_ofExcept, hone]
  refine Prod.ext ?_ (by simp)
  show okOr _ _ = _
  split
  · rename_i hlt
    refine okOr_eq_ok.2 (Option.bind_eq_some_iff.2 ⟨_, checkedMul_eq_some.2 ⟨by omega, rfl⟩, checkedAdd_eq_some.2 ⟨?_, haffine.symm⟩⟩)
    rwa [← haffine]
  · rename_i hlt
    have hnone : ((checkedMul (width - 1) (dagSize op bounds 2 - dagSize op bounds 1)).bind fun n =>
        checkedAdd n (dagSize op bounds 1)) = none := by
      rw [Option.eq_none_iff_forall_ne_some]
      intro n hn
      obtain ⟨_, hmul, hadd⟩ := Option.bind_eq_some_iff.1 hn
      obtain ⟨-, rfl⟩ := checkedMul_eq_some.1 hmul
      obtain ⟨hsum, -⟩ := checkedAdd_eq_some.1 hadd
      rw [← haffine] at hsum
      exact hlt hsum
    rw [hnone]
    rfl

/-- At most three probes, none of them large. -/
def Probes (sizes : List Nat) : Prop := sizes.length ≤ 3 ∧ ∀ n ∈ sizes, n ≤ probeSize

end

/-! ### What the probes need -/

/-- Rounding is monotone, short of overflowing. -/
theorem toRat_ofRat_le {a b : ℚ} (ha : |a| < F64.overflowThreshold) (hb : |b| < F64.overflowThreshold) (hle : a ≤ b) :
    (F64.ofRat a).toRat ≤ (F64.ofRat b).toRat := by
  rcases hle.eq_or_lt with rfl | hlt
  · exact le_rfl
  have hra := F64.rounds_ofRat a
  have hrb := F64.rounds_ofRat b
  have h₁ := sq_le_sq.2 (hra.nearest ha _ (hrb.finite hb))
  have h₂ := sq_le_sq.2 (hrb.nearest hb _ (hra.finite ha))
  by_contra hc
  nlinarith

/-- A configuration of width two or more has one of width three and below. -/
theorem new_of_le {width n : Nat} {epsilon inputBound weightBound : F64} {config : BoundedRmsConfig} (hwidth : 2 ≤ width) (h1 : 1 ≤ n)
    (h3 : n ≤ 3) (h : BoundedRmsConfig.new width epsilon inputBound weightBound = .ok config) :
    ∃ config', BoundedRmsConfig.new n epsilon inputBound weightBound = .ok config' := by
  simp only [BoundedRmsConfig.new, bind_eq_ok, failIf_eq_ok] at h
  obtain ⟨_, hw, _, hε, _, hm', _, hbound, _, hproduct, _, hscaled, -⟩ := h
  obtain ⟨m, hm254, hfloat, hceil, hroot⟩ := BoundedRmsConfig.ceil_root (show 0 < width by omega) (show width ≤ 65025 by omega)
  obtain ⟨k, hk254, hfloat', hceil', hroot'⟩ := BoundedRmsConfig.ceil_root (show 0 < n by omega) (show n ≤ 65025 by omega)
  have hk : k ≤ 1 := by
    have hsqrt : √(n : ℝ) ≤ 1.8 := by
      refine Real.sqrt_le_iff.2 ⟨by norm_num, ?_⟩
      have : (n : ℝ) ≤ 3 := by exact_mod_cast h3
      norm_num
      linarith
    have hlt := Int.ceil_lt_add_one (√(n : ℝ))
    rw [hceil'] at hlt
    have : (k : ℝ) < 2 := by linarith
    have : k < 2 := by exact_mod_cast this
    omega
  have hm : 1 ≤ m := by
    by_contra hc
    obtain rfl : m = 0 := by omega
    have h2 : (2 : ℝ) ≤ width := by exact_mod_cast hwidth
    have := Real.sq_sqrt (show (0 : ℝ) ≤ width by linarith)
    have := Real.sqrt_nonneg (width : ℝ)
    norm_num at hroot
    linarith
  obtain ⟨hlow, hhigh⟩ : InBounds weightBound := not_not.1 (not_or.1 hbound).2
  have hkm : (k : ℚ) ≤ m := by exact_mod_cast hk.trans hm
  have hm254 : (m : ℚ) ≤ 254 := by exact_mod_cast hm254
  have hle : (k + 2) * weightBound.toRat ≤ (m + 2) * weightBound.toRat :=
    mul_le_mul_of_nonneg_right (by linarith) (by linarith)
  have htop : (m + 2) * weightBound.toRat ≤ (65536 : Nat) := by
    push_cast
    nlinarith
  have hnonneg : 0 ≤ (k + 2) * weightBound.toRat := mul_nonneg (by positivity) (by linarith)
  have hround := toRat_ofRat_le (F64.Moderate.of_le hnonneg (hle.trans htop) (by norm_num)).lt
    (F64.Moderate.of_le (hnonneg.trans hle) htop (by norm_num)).lt hle
  rw [F64.mul, hfloat] at hproduct
  have hproduct' : ¬ 480 < ((((F64.ofNat n).sqrt.ceil).add (.ofNat 1)).mul weightBound).toRat := by
    rw [F64.mul, hfloat']
    exact not_lt.2 (hround.trans (not_lt.1 hproduct))
  simp only [BoundedRmsConfig.new, bind_eq_ok, failIf_eq_ok]
  exact ⟨_, (), by omega, (), hε, (), hm', (), hbound, (), hproduct', (), hscaled, rfl⟩

/-- The probes are accepted where a vector operation is, if width three is. -/
theorem accepts_probes {reserve : Nat → Bool} {op : Operation} {width : Nat} {epsilon : F64} {bounds : Option RmsBounds}
    (hop : op = .norm ∨ op = .softmax) (hreserve : ∀ n ≤ 3, reserve n = true) (hwidth : 1 ≤ width)
    (h : Accepts reserve op epsilon bounds width) (hthree : width = 1 → Accepts reserve op epsilon bounds 3) :
    ∀ n ∈ [1, 2, 3], Accepts reserve op epsilon bounds n := by
  intro n hn
  have hn : 1 ≤ n ∧ n ≤ 3 := by
    simp only [List.mem_cons, List.not_mem_nil, or_false] at hn
    omega
  rcases hop with rfl | rfl
  · cases bounds with
    | none => exact ⟨Nat.one_le_iff_ne_zero.1 hn.1, h.2⟩
    | some bounds =>
      obtain ⟨w, hw, config, hconfig⟩ : ∃ w, 2 ≤ w ∧ ∃ config, bounds.config w epsilon = .ok config := by
        rcases Nat.lt_or_ge width 2 with hlt | hge
        · exact ⟨3, by omega, (hthree (by omega)).1⟩
        · exact ⟨width, hge, h.1⟩
      refine ⟨?_, hreserve n hn.2⟩
      have hnew : BoundedRmsConfig.new w epsilon bounds.input bounds.weight = .ok config := by
        rw [RmsBounds.config, boundedText] at hconfig
        cases hc : BoundedRmsConfig.new w epsilon bounds.input bounds.weight with
        | ok c =>
          rw [hc] at hconfig
          exact congrArg Except.ok (Except.ok.inj hconfig)
        | error e =>
          rw [hc] at hconfig
          cases hconfig
      obtain ⟨config', hconfig'⟩ := new_of_le hw hn.1 hn.2 hnew
      exact ⟨config', by rw [RmsBounds.config, hconfig']; rfl⟩
  · exact Nat.one_le_iff_ne_zero.1 hn.1

/-! ### Rows -/

theorem sized_measured {α : Type} {m : Build α} {n c : Nat} {Q : α → Prop} (h : Sized m n c Q) : Sized (measured m) n c (· = n) :=
  fun g => ⟨(h g).1, (h g).2.1, (congrArg (· - g.nodes.length) (h g).1).trans (Nat.add_sub_cancel_left _ _)⟩

theorem sized_rowProbe : Sized rowProbe 220 0 (· = (197, 21)) :=
  Sized.cast ((sized_push _).bind fun x _ => (sized_push _).bind fun y _ => (sized_measured (sized_mulSigned x y)).bind fun _ hproduct =>
    (sized_measured (sized_add x y)).bind fun _ hsum => Sized.pure (by rw [hproduct, hsum])) rfl rfl

theorem sized_rowColumns (l : List Nat) (sum : NodeId) :
    Sized (l.foldlM rowColumn (some sum)) (l.length * 220) 0 fun total => total ≠ none := by
  induction l generalizing sum with
  | nil => exact (Sized.pure nofun).cast (by simp) rfl
  | cons column l ih =>
    rw [List.foldlM_cons]
    have hcolumn : Sized (rowColumn (some sum) column) 220 0 fun total => ∃ id, total = some id :=
      Sized.cast ((sized_push _).bind fun input _ => (sized_push _).bind fun weight _ => (sized_mulSigned _ _).bind fun term _ =>
        (sized_add _ _).bind fun total _ => Sized.pure ⟨total, rfl⟩) rfl rfl
    refine Sized.cast (hcolumn.bind fun total ⟨id, hid⟩ => hid ▸ ih id) ?_ rfl
    rw [List.length_cons]
    omega

/-- The nodes of a row. -/
def rowSize (columns : Nat) : Nat := columns * 199 + (columns - 1) * 21

theorem sized_row {columns : Nat} (h : columns ≠ 0) :
    Sized ((List.range columns).foldlM rowColumn none) (rowSize columns) 0 fun total => total ≠ none := by
  obtain ⟨n, rfl⟩ := Nat.exists_eq_succ_of_ne_zero h
  have hfirst : Sized (rowColumn none 0) 199 0 fun total => ∃ id, total = some id :=
    Sized.cast ((sized_push _).bind fun input _ => (sized_push _).bind fun weight _ => (sized_mulSigned _ _).bind fun term _ =>
      Sized.pure ⟨term, rfl⟩) rfl rfl
  rw [List.range_succ_eq_map, List.foldlM_cons]
  refine Sized.cast (hfirst.bind fun total ⟨id, hid⟩ => hid ▸ sized_rowColumns _ id) ?_ rfl
  rw [List.length_map, List.length_range, rowSize]
  omega

theorem run_built {α : Type} {m : Build α} {n c : Nat} {Q : α → Prop} (h : Sized m n c Q) (sizes : List Nat) :
    ∃ a g, Q a ∧ g.nodes.length = n ∧ g.constPool.length = c ∧ (built (liftM m)).run sizes = (.ok (a, g), sizes ++ [n]) := by
  obtain ⟨hn, hc, hQ⟩ := h {}
  have hn : (m {}).2.nodes.length = n := hn.trans (Nat.zero_add n)
  refine ⟨_, _, hQ, hn, hc.trans (Nat.zero_add c), ?_⟩
  rw [← hn]
  rfl

theorem expected_rejected {text : String} (haffine : text ≠ "symbolic vector node construction is not affine")
    (hchanged : text ≠ "symbolic construction node count changed") : Expected (rejected text) :=
  ⟨nofun, fun h => haffine (KernelError.message.inj (Fault.error.inj h)), fun h => hchanged (KernelError.message.inj (Fault.error.inj h))⟩

/-- The sizes of some probes, followed by graphs of at most `maxNodes` nodes. -/
def Within (maxNodes : Nat) (sizes : List Nat) : Prop :=
  ∃ probes listed, sizes = probes ++ listed ∧ Probes probes ∧ ∀ n ∈ listed, n ≤ maxNodes

theorem Within.probes {maxNodes : Nat} {sizes : List Nat} (h : Probes sizes) : Within maxNodes sizes :=
  ⟨sizes, [], (List.append_nil _).symm, h, fun _ h => nomatch h⟩

theorem Within.append {maxNodes n : Nat} {probes : List Nat} (h : Probes probes) (hn : n ≤ maxNodes) : Within maxNodes (probes ++ [n]) :=
  ⟨probes, [n], rfl, h, by simpa using hn⟩

/-- From the sizes `s`, a computation ends with sizes satisfying `P` and, unless it fails as expected, a result satisfying `Q`. -/
def Stops {α : Type} (P : List Nat → Prop) (x : Compile α) (s : List Nat) (Q : α → Prop) : Prop :=
  P (x.run s).2 ∧ (x.run s).1.Sat Q Expected

namespace Stops
variable {α β : Type} {P : List Nat → Prop} {s s' : List Nat} {Q : β → Prop} {f : α → Compile β} {e : Fault KernelError}

theorem pure {b : β} (hs : P s) (hb : Q b) : Stops P (Pure.pure b) s Q := ⟨hs, hb⟩

theorem ok {x : Compile α} {a : α} (hx : x.run s = (.ok a, s')) (h : Stops P (f a) s' Q) : Stops P (x >>= f) s Q := by
  rw [Stops, Exec.run_bind_ok hx]
  exact h

theorem error {x : Compile α} (hx : x.run s = (.error e, s')) (hs : P s') (he : Expected e) : Stops P (x >>= f) s Q := by
  rw [Stops, Exec.run_bind_error hx]
  exact ⟨hs, he⟩

theorem okExcept {x : Except (Fault KernelError) α} {a : α} (hx : x = .ok a) (h : Stops P (f a) s Q) :
    Stops P (Exec.ofExcept x >>= f) s Q := by
  subst hx
  exact ok rfl h

theorem errorExcept {x : Except (Fault KernelError) α} (hx : x = .error e) (hs : P s) (he : Expected e) :
    Stops P (Exec.ofExcept x >>= f) s Q := by
  subst hx
  exact error rfl hs he

theorem check {c : Prop} [Decidable c] {f : Unit → Compile β} (hs : P s) (he : c → Expected e) (h : ¬ c → Stops P (f ()) s Q) :
    Stops P (Exec.ofExcept (failIf c e) >>= f) s Q := by
  by_cases hc : c
  · exact errorExcept (if_pos hc) hs (he hc)
  · exact okExcept (if_neg hc) (h hc)

theorem orElse {o : Option α} (hs : P s) (he : o = none → Expected e) (h : ∀ a, o = some a → Stops P (f a) s Q) :
    Stops P (Exec.ofExcept (okOr o e) >>= f) s Q := by
  cases o with
  | none => exact errorExcept rfl hs (he rfl)
  | some a => exact okExcept (a := a) rfl (h a rfl)

/-- A construction among the probes. -/
theorem probe {reserve : Nat → Bool} {op : Operation} {n : Nat} {epsilon : F64} {bounds : Option RmsBounds} {f : OperationDag → Compile β}
    (hs : s.length < 3 ∧ ∀ n ∈ s, n ≤ probeSize) (hle : dagSize op bounds n ≤ probeSize)
    (h : Accepts reserve op epsilon bounds n → ∀ dag, dag.soa.nodes.length = dagSize op bounds n →
      Stops Probes (f dag) (s ++ [dagSize op bounds n]) Q) : Stops Probes (buildDag reserve op n epsilon bounds >>= f) s Q := by
  rcases run_buildDag reserve op n epsilon bounds with ⟨haccepts, dag, hlen, hrun⟩ | ⟨-, e, m, he, hm, hrun⟩
  · exact .ok (hrun s) (h haccepts dag hlen)
  · refine .error (hrun s) ⟨?_, fun n hn => ?_⟩ he
    · rw [List.length_append]
      exact hs.1
    · rcases List.mem_append.1 hn with hn | hn
      · exact hs.2 n hn
      · rw [List.mem_singleton.1 hn]
        exact hm.trans hle

end Stops

theorem requiredNodes_stops (reserve : Nat → Bool) (op : Operation) {width : Nat} (epsilon : F64) (bounds : Option RmsBounds)
    (h : 1 ≤ width) : Stops Probes (requiredNodes reserve op width epsilon bounds) [] (· = dagSize op bounds width) := by
  by_cases hop : op = .norm ∨ op = .softmax
  · have hle (n : Nat) (hn : n ≤ 3) : dagSize op bounds n ≤ probeSize := dagSize_le_probeSize _ _ _ (.inl hn)
    have h₁ := hle 1 (by omega)
    have h₂ := hle 2 (by omega)
    have h₃ := hle 3 (by omega)
    by_cases hall : ∀ n ∈ [1, 2, 3], Accepts reserve op epsilon bounds n
    · rw [Stops, run_requiredNodes hop h hall]
      refine ⟨⟨le_rfl, by simpa using ⟨h₁, h₂, h₃⟩⟩, ?_⟩
      split
      · rfl
      · exact expected_rejected (by simp) (by simp)
    · rw [requiredNodes, if_pos hop]
      refine .probe ⟨by simp, by simp⟩ h₁ fun hone _ _ => .probe ⟨by simp, by simpa using h₁⟩ h₂ fun htwo _ _ => ?_
      refine .probe ⟨by simp, by simpa using ⟨h₁, h₂⟩⟩ h₃ fun hthree _ _ => absurd ?_ hall
      simpa using ⟨hone, htwo, hthree⟩
  · have hle := dagSize_le_probeSize op width bounds (.inr hop)
    rw [requiredNodes, if_neg hop]
    exact .probe ⟨by simp, by simp⟩ hle fun _ dag hlen => .pure ⟨by simp, by simpa using hle⟩ hlen

/-- What `compile_row` builds has the size that it computed. -/
theorem compileRow_stops (columns maxNodes : Nat) : Stops (Within maxNodes) (compileRow columns maxNodes) [] fun row =>
    row.soa.nodes.length = row.nodes ∧ row.nodes = rowSize columns ∧ row.nodes ≤ maxNodes := by
  have hnil : Within maxNodes [] := .probes ⟨by simp, fun _ h => nomatch h⟩
  have hprobe : Probes [220] := ⟨by simp, by simp [probeSize]⟩
  unfold compileRow
  refine .check hnil (fun _ => expected_rejected (by simp) (by simp)) fun hcolumns => ?_
  obtain ⟨_, g, rfl, -, -, hrun⟩ := run_built sized_rowProbe []
  refine .ok hrun (.orElse (.probes hprobe) (fun _ => expected_rejected (by simp) (by simp)) fun nodes hnodes => ?_)
  have hsize : nodes = rowSize columns := by
    simp only [Option.bind_eq_some_iff] at hnodes
    obtain ⟨products, hproducts, sums, hsums, htotal⟩ := hnodes
    obtain ⟨-, rfl⟩ := checkedMul_eq_some.1 hproducts
    obtain ⟨-, rfl⟩ := checkedMul_eq_some.1 hsums
    exact (checkedAdd_eq_some.1 htotal).2.symm
  refine .check (.probes hprobe) (fun _ => expected_rejected (by simp) (by simp)) fun hbudget => ?_
  have hle : nodes ≤ maxNodes := by omega
  obtain ⟨total, soa, htotal, hlen, hpool, hrun⟩ := run_built (sized_row hcolumns) ([] ++ [220])
  rw [← hsize] at hlen hrun
  have hdone : Within maxNodes ([] ++ [220] ++ [nodes]) := .append hprobe hle
  obtain ⟨root, rfl⟩ := Option.ne_none_iff_exists'.1 htotal
  have hpool : soa.constPool = [] := List.length_eq_zero_iff.1 hpool
  refine .ok hrun (.check hdone (fun hne => absurd hlen hne) fun _ => .orElse hdone nofun fun root' hroot => ?_)
  refine .check hdone (fun hne => absurd hpool hne) fun _ => .pure hdone ⟨hlen, hsize, hle⟩

/-! ### Compilation -/

theorem signatureWithRmsBounds_sat (op : Operation) (width : Nat) (epsilon : F64) (bounds : Option RmsBounds) :
    (op.signatureWithRmsBounds width epsilon bounds).Sat (fun _ => 1 ≤ width) Expected := by
  have hwidth : Expected (rejected "invalid symbolic operation width") := expected_rejected (by simp) (by simp)
  have hsignature : (op.signature width epsilon).Sat (fun _ => 1 ≤ width) Expected := by
    refine (Sat.failIf fun _ => expected_rejected (by simp) (by simp)).bind fun _ hpos => ?_
    have hpos : 1 ≤ width := Nat.one_le_iff_ne_zero.2 hpos
    cases op with
    | dot | downDot | softmax => exact hpos
    | norm => exact (Sat.failIf fun _ => expected_rejected (by simp) (by simp)).bind fun _ _ => hpos
    | rope | swiglu | add | scale => exact (Sat.failIf fun _ => hwidth).bind fun _ _ => hpos
    | attentionDot | weightedSum => exact hwidth
  refine hsignature.bind fun signature hpos => ?_
  split
  · rename_i bounds
    have hconfig : (bounds.config width epsilon).Sat (fun _ => True) Expected := by
      rw [RmsBounds.config]
      cases BoundedRmsConfig.new width epsilon bounds.input bounds.weight with
      | ok config => trivial
      | error e => exact expected_bounded e
    exact hconfig.bind fun _ _ => hpos
  · exact hpos

theorem compileOperation_stops (reserve : Nat → Bool) (opBytes : Nat) (op : Operation) (width : Nat) (epsilon : F64)
    (layout : OutputLayout) (bounds : Option RmsBounds) (limits : KernelLimits) :
    Stops (Within limits.maxNodes) (compileOperation reserve opBytes op width epsilon layout bounds limits) []
      fun dag => dag.soa.nodes.length ≤ limits.maxNodes := by
  have hnil : Within limits.maxNodes [] := .probes ⟨by simp, fun _ h => nomatch h⟩
  have hsignature := signatureWithRmsBounds_sat op width epsilon bounds
  unfold compileOperation
  cases hbase : op.signatureWithRmsBounds width epsilon bounds with
  | error e =>
    rw [hbase] at hsignature
    exact .errorExcept rfl hnil hsignature
  | ok base =>
    rw [hbase] at hsignature
    have hwidth : 1 ≤ width := hsignature
    refine .okExcept (a := base) rfl (.check hnil (fun _ => expected_rejected (by simp) (by simp)) fun _ => ?_)
    refine .check hnil (fun _ => expected_rejected (by simp) (by simp)) fun _ => ?_
    cases hprograms : programCount layout base.outputs with
    | error e =>
      have he : Expected e := by
        cases layout with
        | scalars | buffer => cases hprograms
        | indexedBuffer =>
          obtain rfl := Except.error.inj hprograms
          exact expected_rejected (by simp) (by simp)
      exact .errorExcept rfl hnil he
    | ok programs =>
      refine .okExcept (a := programs) rfl (.check hnil (fun _ => expected_rejected (by simp) (by simp)) fun _ => ?_)
      split
      · obtain ⟨hlisted, hrow⟩ := compileRow_stops width limits.maxNodes
        rcases hrun : (compileRow width limits.maxNodes).run [] with ⟨e | row, sizes⟩
        · rw [hrun] at hlisted hrow
          exact .error hrun hlisted hrow
        · rw [hrun] at hlisted hrow
          refine .ok hrun (.pure hlisted ?_)
          show row.soa.nodes.length ≤ limits.maxNodes
          rw [hrow.1]
          exact hrow.2.2
      · obtain ⟨hprobes, hnodes⟩ := requiredNodes_stops reserve op epsilon bounds hwidth
        rcases hrun : (requiredNodes reserve op width epsilon bounds).run [] with ⟨e | nodes, probes⟩
        · rw [hrun] at hprobes hnodes
          exact .error hrun (.probes hprobes) hnodes
        · rw [hrun] at hprobes hnodes
          obtain rfl : nodes = dagSize op bounds width := hnodes
          refine .ok hrun (.check (.probes hprobes) (fun _ => expected_rejected (by simp) (by simp)) fun hbudget => ?_)
          have hle : dagSize op bounds width ≤ limits.maxNodes := by omega
          rcases run_buildDag reserve op width epsilon bounds with ⟨-, dag, hlen, hbuild⟩ | ⟨-, e, n, he, hn, hbuild⟩
          · have hdone : Within limits.maxNodes (probes ++ [dagSize op bounds width]) := .append hprobes hle
            refine .ok (hbuild probes) (.check hdone (fun hbad => absurd hbad ?_) fun _ => .pure hdone (hlen.le.trans hle))
            omega
          · exact .error (hbuild probes) (.append hprobes (hn.trans hle)) he

/-- Whether the graph of `width` is built, and with how many nodes. -/
def Builds (reserve : Nat → Bool) (op : Operation) (width : Nat) (epsilon : F64) (bounds : Option RmsBounds) (nodes : Nat) : Prop :=
  ∃ dag sizes, (buildDag reserve op width epsilon bounds).run [] = (.ok dag, sizes) ∧ dag.soa.nodes.length = nodes

theorem builds_iff {reserve : Nat → Bool} {op : Operation} {width nodes : Nat} {epsilon : F64} {bounds : Option RmsBounds} :
    Builds reserve op width epsilon bounds nodes ↔ Accepts reserve op epsilon bounds width ∧ nodes = dagSize op bounds width := by
  rcases run_buildDag reserve op width epsilon bounds with ⟨haccepts, dag, hlen, hrun⟩ | ⟨hrejects, e, n, -, -, hrun⟩
  · refine ⟨fun ⟨dag', sizes, hrun', hnodes⟩ => ⟨haccepts, ?_⟩, fun ⟨_, hnodes⟩ => ⟨dag, _, hrun [], hlen.trans hnodes.symm⟩⟩
    rw [hrun] at hrun'
    obtain ⟨hdag, -⟩ := Prod.mk.inj hrun'
    rw [← hnodes, ← hlen, Except.ok.inj hdag]
  · refine ⟨fun ⟨dag', sizes, hrun', _⟩ => ?_, fun ⟨haccepts, _⟩ => absurd haccepts hrejects⟩
    rw [hrun] at hrun'
    exact nomatch (Prod.mk.inj hrun').1

/-- Vector graphs have the size of the preflight, rows have theirs, and no construction outgrows its budget or fails a late check. -/
theorem node_preflight_exact :
    (∀ {reserve : Nat → Bool} {op : Operation} {width nodes : Nat} {epsilon : F64} {bounds : Option RmsBounds},
      op = .norm ∨ op = .softmax → 1 ≤ width → (∀ n ≤ 3, reserve n = true) → Builds reserve op width epsilon bounds nodes →
      (width = 1 → ∃ n, Builds reserve op 3 epsilon bounds n) →
      (∃ one two, Builds reserve op 1 epsilon bounds one ∧ Builds reserve op 2 epsilon bounds two ∧
        nodes = one + (width - 1) * (two - one)) ∧
      ((requiredNodes reserve op width epsilon bounds).run []).1 =
        if nodes < 2 ^ 64 then .ok nodes else .error (rejected "symbolic node size overflow")) ∧
    (∀ columns maxNodes, Stops (Within maxNodes) (compileRow columns maxNodes) [] fun row =>
      row.soa.nodes.length = row.nodes ∧ row.nodes ≤ maxNodes) ∧
    ∀ reserve opBytes op width epsilon layout bounds limits,
      Stops (Within limits.maxNodes) (compileOperation reserve opBytes op width epsilon layout bounds limits) []
        fun dag => dag.soa.nodes.length ≤ limits.maxNodes := by
  refine ⟨fun {reserve op width nodes epsilon bounds} hop hwidth hreserve hbuilds hthree => ?_, fun columns maxNodes => ?_,
    compileOperation_stops⟩
  · obtain ⟨haccepts, rfl⟩ := builds_iff.1 hbuilds
    have hthree' : width = 1 → Accepts reserve op epsilon bounds 3 := fun h => by
      obtain ⟨n, hn⟩ := hthree h
      exact (builds_iff.1 hn).1
    have hprobes := accepts_probes hop hreserve hwidth haccepts hthree'
    refine ⟨⟨_, _, builds_iff.2 ⟨hprobes 1 (by simp), rfl⟩, builds_iff.2 ⟨hprobes 2 (by simp), rfl⟩, ?_⟩, ?_⟩
    · rw [dagSize_affine bounds hop hwidth, Nat.add_comm]
    · rw [run_requiredNodes hop hwidth hprobes]
  · obtain ⟨hlisted, hrow⟩ := compileRow_stops columns maxNodes
    exact ⟨hlisted, hrow.mono (fun row h => ⟨h.1, h.2.2⟩) fun _ he => he⟩

/-! ### Where the budget is not exact -/

theorem new_one_two : (∃ config, BoundedRmsConfig.new 1 (.ofNat 1) (.ofNat 1) (.ofNat 200) = .ok config) ∧
    ∀ config, BoundedRmsConfig.new 2 (.ofNat 1) (.ofNat 1) (.ofNat 200) ≠ .ok config := by
  have h1 : (F64.ofNat 1).toRat = 1 := F64.toRat_ofNat (by norm_num)
  have h200 : (F64.ofNat 200).toRat = 200 := F64.toRat_ofNat (by norm_num)
  have hbound (width m : Nat) (hm : m < 2) (hlo : m ^ 2 < width) (hhi : width ≤ (m + 1) ^ 2) :
      (((F64.ofNat width).sqrt.ceil.add (.ofNat 1)).mul (.ofNat 200)).toRat = (m + 2) * 200 := by
    have hroot : ((F64.ofNat width).sqrt.ceil.add (.ofNat 1)).toRat = (m + 2 : Nat) := by
      rw [F64.add, F64.toRat_ceil_sqrt (by omega) hlo hhi, h1]
      exact F64.toRat_ofRat (by push_cast; ring) (by omega)
    rw [F64.mul, hroot, h200]
    have := F64.toRat_ofRat (q := ((m + 2 : Nat) : ℚ) * 200) (n := (m + 2) * 200) (by push_cast; ring) (by omega)
    rw [this]
    push_cast
    ring
  have hone := hbound 1 0 (by norm_num) (by norm_num) (by norm_num)
  have htwo := hbound 2 1 (by norm_num) (by norm_num) (by norm_num)
  have hscaled : ((F64.ofNat 1).div ((F64.ofNat 1).mul (.ofNat 1))).toRat = 1 := by
    rw [F64.mul_ofNat (by norm_num) (by norm_num), F64.div, h1, div_one]
    exact (F64.toRat_ofRat (n := 1) (by norm_num) (by norm_num)).trans Nat.cast_one
  have f1 := F64.isFinite_ofNat (n := 1) (by norm_num)
  have f200 := F64.isFinite_ofNat (n := 200) (by norm_num)
  constructor
  · norm_num [BoundedRmsConfig.new, InBounds, failIf, h1, h200, hone, hscaled, f1, f200]
  · norm_num [BoundedRmsConfig.new, InBounds, failIf, h1, h200, htwo, hscaled, f1, f200]
    intro _ h
    cases h

/-- The probes need more than the width asked for, and they are built before the budget is known to hold them. -/
theorem probes_outside :
    (∃ nodes, Builds (fun _ => true) .norm 1 (.ofNat 1) (some ⟨.ofNat 1, .ofNat 200⟩) nodes) ∧
    (∀ nodes, ((requiredNodes (fun _ => true) .norm 1 (.ofNat 1) (some ⟨.ofNat 1, .ofNat 200⟩)).run []).1 ≠ .ok nodes) ∧
    ∃ n ∈ ((compileOperation (fun _ => true) 16 .softmax 1 (.ofNat 1) .buffer none ⟨0, 1024, 32768⟩).run []).2, 0 < n := by
  obtain ⟨⟨config, hconfig⟩, hnone⟩ := new_one_two
  have hone : Accepts (fun _ => true) .norm (.ofNat 1) (some ⟨.ofNat 1, .ofNat 200⟩) 1 :=
    ⟨⟨config, by rw [RmsBounds.config, hconfig]; rfl⟩, rfl⟩
  have htwo : ¬ Accepts (fun _ => true) .norm (.ofNat 1) (some ⟨.ofNat 1, .ofNat 200⟩) 2 := by
    rintro ⟨⟨config', h⟩, -⟩
    rw [RmsBounds.config] at h
    cases hnew : BoundedRmsConfig.new 2 (.ofNat 1) (.ofNat 1) (.ofNat 200) with
    | ok c => exact hnone c hnew
    | error e =>
      rw [hnew] at h
      cases h
  refine ⟨⟨_, builds_iff.2 ⟨hone, rfl⟩⟩, fun nodes h => ?_, ?_⟩
  · rw [requiredNodes, if_pos (.inl rfl)] at h
    obtain ⟨-, dag, -, hrun₁⟩ := (run_buildDag _ .norm 1 _ _).resolve_right fun hrejects => hrejects.1 hone
    obtain ⟨-, e, n, -, -, hrun₂⟩ := (run_buildDag _ .norm 2 _ _).resolve_left fun haccepts => htwo haccepts.1
    rw [Exec.run_bind_ok (hrun₁ []), Exec.run_bind_error (hrun₂ _)] at h
    cases h
  · have hprobes : ∀ n ∈ [1, 2, 3], Accepts (fun _ => true) .softmax (.ofNat 1) none n := by simp [Accepts]
    have hrun := run_requiredNodes (.inr rfl) le_rfl hprobes []
    have hsize : dagSize .softmax none 1 = 141 := rfl
    rw [if_pos (by rw [hsize]; norm_num)] at hrun
    have hsignature : Operation.softmax.signatureWithRmsBounds 1 (.ofNat 1) none = .ok ⟨1, 0, 1, [.log2E]⟩ := rfl
    have hbudget : (Exec.ofExcept (failIf (0 < dagSize .softmax none 1 ∨ 2 ^ 32 - 1 < dagSize .softmax none 1)
        (rejected "symbolic node budget exceeded")) : Compile Unit).run ([] ++ [dagSize .softmax none 1, dagSize .softmax none 2,
          dagSize .softmax none 3]) = (.error (rejected "symbolic node budget exceeded"), [141, dagSize .softmax none 2,
          dagSize .softmax none 3]) := rfl
    refine ⟨141, ?_, by norm_num⟩
    rw [compileOperation, Exec.run_ofExcept_bind hsignature, Exec.run_ofExcept_bind ((failIf_eq_ok (u := ())).2 (by simp [OutputLayout.forOperation])),
      Exec.run_ofExcept_bind ((failIf_eq_ok (u := ())).2 (by norm_num)), Exec.run_ofExcept_bind (show programCount .buffer 1 = .ok 1 from rfl),
      Exec.run_ofExcept_bind ((failIf_eq_ok (u := ())).2 (by norm_num)), if_neg (by simp), Exec.run_bind_ok hrun, Exec.run_bind_error hbudget]
    simp

end Symbolic
end BmlSys
