import Fluxion.Proofs.Differentiation
import Fluxion.Proofs.Numbers
import Fluxion.Proofs.Shape

/-!
# When the derivative settles

The rules of differentiation are applied at depth one, two and so on, until two successive trees are
the same. A tree has as many `layers` as operators stand above one another, exponents not being looked
into. Below that depth every further step changes the tree, because somewhere a marker on an operator
becomes an operator; from that depth on nothing changes and every marker is on an atom. So the search
ends one step after the last layer, which is never beyond the bound that the depth of the tree sets, and
a limit of the caller stops it exactly when it is smaller than that.
-/

namespace Fluxion

variable {α : Type}

namespace Expr

/-- How many operators stand above one another; the literal exponent of a power is no operand. -/
def layers : Expr α → ℕ
  | num _ => 0
  | var _ => 0
  | bin .pow b (num _) => 1 + b.layers
  | bin _ l r => 1 + max l.layers r.layers
  | pending _ => 0
  | hole => 0

theorem layers_bin (op : Operator) (l r : Expr α) :
    (bin op l r).layers = 1 + max l.layers r.layers := by
  cases op with
  | pow =>
    cases r with
    | num e => simp [layers]
    | _ => rfl
  | _ => rfl

/-- The depth at which the search for a fixed point of the rules stops. -/
def settlingDepth (n : Expr α) : ℕ := max n.layers 1 + 1

/-- What the markers of a tree stand on. -/
def targets : Expr α → List (Expr α)
  | num _ => []
  | var _ => []
  | bin _ l r => l.targets ++ r.targets
  | pending t => t :: t.targets
  | hole => []

theorem targets_of_isAtom {t : Expr α} (h : t.IsAtom) : t.targets = [] := by
  cases t with
  | num v => rfl
  | var x => rfl
  | bin op l r => exact h.elim
  | pending t => exact h.elim
  | hole => exact h.elim

theorem Resolvable.isAtom_of_mem_targets {m : Expr α} (h : m.Resolvable) :
    ∀ t ∈ m.targets, t.IsAtom := by
  induction h with
  | num v => simp [targets]
  | var x => simp [targets]
  | join hop hl hr ihl ihr => exact List.forall_mem_append.mpr ⟨ihl, ihr⟩
  | power hb ih => simpa [targets] using ih
  | marker ht => simpa [targets, targets_of_isAtom ht] using ht

theorem Arithmetic.layers_lt_depth {n : Expr α} (h : n.Arithmetic) : n.layers < n.depth := by
  induction h with
  | num v => simp [layers, depth]
  | var x => simp [layers, depth]
  | join hop hl hr ihl ihr =>
    rw [layers_bin, depth]
    omega
  | power hb ih =>
    rw [layers_bin, depth]
    simp only [layers, depth]
    omega
  | marker ht => exact ht.elim

theorem Arithmetic.settlingDepth_le {n : Expr α} (h : n.Arithmetic) :
    n.settlingDepth ≤ n.depth + 1 := by
  have := h.layers_lt_depth
  unfold settlingDepth
  omega

variable [Scalar α]

/-! ## From the last layer on -/

/-- From its last layer on, more depth changes nothing. -/
theorem Arithmetic.derive_congr {n : Expr α} (h : n.Arithmetic) {d d' : ℤ}
    (hd : (n.layers : ℤ) ≤ d) (hd' : (n.layers : ℤ) ≤ d') : n.derive d = n.derive d' := by
  induction h generalizing d d' with
  | num v => rfl
  | var x => rfl
  | @join op l r hop hl hr ihl ihr =>
    rw [layers_bin] at hd hd'
    push_cast at hd hd'
    rw [derive_join hop l r (by omega), derive_join hop l r (by omega),
      @ihl (d - 1) (d' - 1) (by omega) (by omega), @ihr (d - 1) (d' - 1) (by omega) (by omega)]
  | @power b e hb ih =>
    rw [layers_bin] at hd hd'
    push_cast at hd hd'
    rw [derive_power b e (by omega), derive_power b e (by omega),
      @ih (d - 1) (d' - 1) (by omega) (by omega)]
  | marker ht => exact ht.elim

theorem Resolvable.joinRule {op : Operator} (hop : op ∈ Operator.joins) {l r dl dr : Expr α}
    (hl : l.Resolvable) (hr : r.Resolvable) (hdl : dl.Resolvable) (hdr : dr.Resolvable) :
    (Expr.joinRule op l r dl dr).Resolvable := by
  have hmul {a b : Expr α} (ha : a.Resolvable) (hb : b.Resolvable) : (mul a b).Resolvable :=
    .join (by decide) ha hb
  fin_cases hop
  · exact .join (by decide) hdl hdr
  · exact .join (by decide) hdl hdr
  · exact .join (by decide) (hmul hdl hr) (hmul hl hdr)
  · exact .join (by decide) (.join (by decide) (hmul hdl hr) (hmul hl hdr)) (.power hr)

/-- From its last layer on, every marker is on an atom. -/
theorem Arithmetic.resolvable_derive {n : Expr α} (h : n.Arithmetic) {d : ℤ}
    (hd : (n.layers : ℤ) ≤ d) {m : Expr α} (hm : n.derive d = .ok m) : m.Resolvable := by
  induction h generalizing d m with
  | num v => cases hm; exact .marker trivial
  | var x => cases hm; exact .marker trivial
  | @join op l r hop hl hr ihl ihr =>
    rw [layers_bin] at hd
    push_cast at hd
    rw [derive_join hop l r (by omega)] at hm
    obtain ⟨dl, hdl, hm⟩ := bind_eq_ok.mp hm
    obtain ⟨dr, hdr, hm⟩ := bind_eq_ok.mp hm
    cases hm
    exact Resolvable.joinRule hop (Arithmetic.resolvable hl) (Arithmetic.resolvable hr)
      (ihl (by omega) hdl) (ihr (by omega) hdr)
  | @power b e hb ih =>
    rw [layers_bin] at hd
    push_cast at hd
    rw [derive_power b e (by omega)] at hm
    obtain ⟨db, hdb, hm⟩ := bind_eq_ok.mp hm
    cases hm
    exact .join (by decide) (.join (by decide) (.num e) (.power (Arithmetic.resolvable hb)))
      (ih (by omega) hdb)
  | marker ht => exact ht.elim

/-! ## Before the last layer -/

theorem same_joinRule {op : Operator} (hop : op ∈ Operator.joins) {l r dl dr dl' dr' : Expr α}
    (h : (joinRule op l r dl dr).same (joinRule op l r dl' dr') = true) :
    dl.same dl' = true ∧ dr.same dr' = true := by
  fin_cases hop <;> simp_all [joinRule, productRule, quotientRule, same]

/-- Before the last layer, one more step of depth changes the tree. -/
theorem Arithmetic.not_same_derive {n : Expr α} (h : n.Arithmetic) {d : ℤ} (h0 : 0 ≤ d)
    (hd : d < n.layers) {m m' : Expr α} (hm : n.derive d = .ok m) (hm' : n.derive (d + 1) = .ok m') :
    m.same m' = false := by
  induction h generalizing d m m' with
  | num v => exact absurd h0 (not_le.mpr hd)
  | var x => exact absurd h0 (not_le.mpr hd)
  | @join op l r hop hl hr ihl ihr =>
    rw [layers_bin] at hd
    push_cast at hd
    rw [derive_join hop l r (by omega), add_sub_cancel_right] at hm'
    obtain ⟨dl', hdl', hm'⟩ := bind_eq_ok.mp hm'
    obtain ⟨dr', hdr', hm'⟩ := bind_eq_ok.mp hm'
    cases hm'
    rcases h0.eq_or_lt with rfl | hpos
    · -- at depth zero the marker on the operator gives way to a rule
      rw [derive_of_nonpos _ _ _ (le_refl 0)] at hm
      cases hm
      fin_cases hop <;> rfl
    · rw [derive_join hop l r hpos] at hm
      obtain ⟨dl, hdl, hm⟩ := bind_eq_ok.mp hm
      obtain ⟨dr, hdr, hm⟩ := bind_eq_ok.mp hm
      cases hm
      by_contra hsame
      obtain ⟨hsl, hsr⟩ := same_joinRule hop (Bool.not_eq_false _ ▸ hsame)
      -- the deeper of the two operands still changes
      rcases lt_max_iff.mp (show d - 1 < max (l.layers : ℤ) r.layers by omega) with hlt | hlt
      · rw [ihl (by omega) hlt hdl (by rw [sub_add_cancel]; exact hdl')] at hsl
        cases hsl
      · rw [ihr (by omega) hlt hdr (by rw [sub_add_cancel]; exact hdr')] at hsr
        cases hsr
  | @power b e hb ih =>
    rw [layers_bin] at hd
    push_cast at hd
    rw [derive_power b e (by omega), add_sub_cancel_right] at hm'
    obtain ⟨db', hdb', hm'⟩ := bind_eq_ok.mp hm'
    cases hm'
    rcases h0.eq_or_lt with rfl | hpos
    · rw [derive_of_nonpos _ _ _ (le_refl 0)] at hm
      cases hm
      rfl
    · rw [derive_power b e hpos] at hm
      obtain ⟨db, hdb, hm⟩ := bind_eq_ok.mp hm
      cases hm
      have hlt : d - 1 < b.layers := by
        rw [layers] at hd
        omega
      rw [powerRule, powerRule, same, ih (by omega) hlt hdb (by rw [sub_add_cancel]; exact hdb'),
        Bool.and_false]
  | marker ht => exact ht.elim

end Expr

/-! ## The search -/

/-- `m` is what the rules make of `n` from its last layer on. -/
structure Expr.SettlesTo [Scalar α] (n m : Expr α) : Prop where
  arithmetic : n.Arithmetic
  derive (d : ℤ) : (n.layers : ℤ) ≤ d → n.derive d = .ok m
  resolvable : m.Resolvable
  same_self : m.same m = true

namespace Differentiation

variable [Scalar α] {n m : Expr α}

/-- The search from depth `depth` on, when the tree of the depth before is known: it returns the tree
of the settling depth, unless fewer depths than that may be tried. -/
theorem outcome_settle (h : n.SettlesTo m) (limit : ℕ) {remaining depth : ℕ} {p : Expr α}
    (hdepth : depth < n.settlingDepth) (hpos : 0 < depth) (hp : n.derive depth = .ok p) :
    (settle limit n remaining (depth + 1) (some p)).outcome =
      if n.settlingDepth ≤ depth + remaining then .ok ⟨m, n.settlingDepth⟩
      else .error (.iterationLimit limit) := by
  induction remaining generalizing depth p with
  | zero =>
    rw [if_neg (by omega)]
    rfl
  | succ remaining ih =>
    obtain ⟨current, hcurrent⟩ := h.arithmetic.exists_derive (depth + 1 : ℕ)
    rw [settle, Traced.outcome_bind_eq, outcome_runPass.mpr hcurrent]
    show Traced.outcome (if p.same current then _ else _) = _
    by_cases hlast : n.layers ≤ depth
    · -- the first depth at which the tree before is a settled one
      have hend : n.settlingDepth = depth + 1 := by
        unfold Expr.settlingDepth at hdepth ⊢
        omega
      obtain rfl : m = p := Except.ok.inj ((h.derive depth (by omega)).symm.trans hp)
      obtain rfl : m = current :=
        Except.ok.inj ((h.derive (depth + 1 : ℕ) (by omega)).symm.trans hcurrent)
      rw [if_pos h.same_self, if_pos (by omega), Traced.outcome_pure, hend]
    · have hmore : depth + 1 < n.settlingDepth := by
        unfold Expr.settlingDepth
        omega
      have hnot : p.same current = false :=
        h.arithmetic.not_same_derive (by omega) (by omega) hp hcurrent
      rw [hnot, if_neg Bool.false_ne_true, ih hmore (Nat.succ_pos depth) hcurrent,
        Nat.add_right_comm, Nat.add_assoc]

/-- The search as a whole. The bound that the depth of the tree sets never stops it; a limit of the
caller does exactly when it is smaller than the settling depth. -/
theorem outcome_fixedPoint (h : n.SettlesTo m) (options : Options) :
    (fixedPoint options n).outcome =
      if 0 < options.maxIterations ∧ options.maxIterations < n.settlingDepth then
        .error (.iterationLimit options.maxIterations.toNat)
      else .ok ⟨m, n.settlingDepth⟩ := by
  have hdepth : n.settlingDepth ≤ n.depth + 1 := h.arithmetic.settlingDepth_le
  have hone : 1 < n.settlingDepth := by
    unfold Expr.settlingDepth
    omega
  have hsearch (limit : ℕ) : (settle limit n limit 1 none).outcome =
      if n.settlingDepth ≤ limit then .ok ⟨m, n.settlingDepth⟩
      else .error (.iterationLimit limit) := by
    cases limit with
    | zero => rfl
    | succ remaining =>
      obtain ⟨first, hfirst⟩ := h.arithmetic.exists_derive (1 : ℕ)
      rw [settle, Traced.outcome_bind_eq, outcome_runPass.mpr hfirst]
      show (settle _ n remaining 2 (some first)).outcome = _
      rw [outcome_settle h _ hone Nat.one_pos hfirst, Nat.add_comm 1]
  rw [fixedPoint, hsearch, bound]
  by_cases hcap : 0 < options.maxIterations ∧ options.maxIterations < n.settlingDepth
  · have hb : (decide (0 < options.maxIterations) &&
        decide (options.maxIterations < ((n.depth + 1 : ℕ) : ℤ))) = true := by
      simp only [Bool.and_eq_true, decide_eq_true_eq]
      omega
    rw [if_pos hcap, if_pos hb, if_neg (by omega)]
  · rw [if_neg hcap, if_pos]
    split
    · rename_i hb
      simp only [Bool.and_eq_true, decide_eq_true_eq] at hb
      omega
    · exact hdepth

variable {options : Options} {text : List UInt8} {x : String} {p : Expr α}

/-- What is left to do once a text has been read and multiplied out. -/
theorem outcome_pipeline (hx : isIdentifier x = true) (hparse : Expr.parse text = .ok p)
    (hdist : p.distribute = .ok n) :
    (pipeline options text x).outcome = (do
      let d ← (fixedPoint options n).outcome
      let r ← (finish options x d.expr).outcome
      return ⟨r, d.iterations⟩) := by
  rw [pipeline, if_pos hx, hparse]
  simp only [Traced.outcome_bind_eq]
  show ((runPass .distribute 0 p.distribute).outcome >>= _) = _
  rw [outcome_runPass.mpr hdist]
  rfl

/-- A limit that is too small stops a differentiation before its last stages. -/
theorem outcome_pipeline_of_lt (hx : isIdentifier x = true) (hparse : Expr.parse text = .ok p)
    (hdist : p.distribute = .ok n) (h : n.SettlesTo m)
    (hcap : 0 < options.maxIterations ∧ options.maxIterations < n.settlingDepth) :
    (pipeline options text x).outcome =
      .error (.iterationLimit options.maxIterations.toNat : Cause α) := by
  rw [outcome_pipeline hx hparse hdist, outcome_fixedPoint h, if_pos hcap]
  rfl

/-- Otherwise only numbers can stop it. -/
theorem endsIn_pipeline_of_not_lt (hx : isIdentifier x = true) (hparse : Expr.parse text = .ok p)
    (hdist : p.distribute = .ok n) (h : n.SettlesTo m)
    (hcap : ¬(0 < options.maxIterations ∧ options.maxIterations < n.settlingDepth)) :
    EndsIn Cause.IsNumeric (fun d : Derivative α => d.iterations = n.settlingDepth)
      (pipeline options text x).outcome := by
  rw [outcome_pipeline hx hparse hdist, outcome_fixedPoint h, if_neg hcap]
  exact (endsIn_finish h.resolvable options x).bind fun r _ => rfl

end Differentiation

section Outcome

variable [Scalar α] {options : Options} {text : List UInt8} {x : String}

theorem differentiate_eq_ok {s : Solution α}
    (h : (differentiate options text x).outcome = .ok s) :
    (Differentiation.pipeline options text x).outcome = .ok ⟨s.expr, s.iterations⟩ := by
  rw [differentiate] at h
  dsimp only at h
  split at h
  · cases h
    assumption
  · cases h

theorem exists_differentiate_error_iff {c : Cause α} :
    (∃ f, (differentiate options text x).outcome = .error f ∧ f.cause = c) ↔
      (Differentiation.pipeline options text x).outcome = .error c := by
  rw [differentiate]
  dsimp only
  cases (Differentiation.pipeline (α := α) options text x).outcome with
  | error cause => simp
  | ok d => simp

end Outcome

section Definite

variable [DefiniteScalar α]

theorem DefiniteScalar.isDefined_of_isValue {v : α} (h : Numeral.IsValue v) : Scalar.IsDefined v := by
  obtain ⟨literal, hv⟩ := h
  exact isDefined_ofDecimal hv

/-- The derivative of a text that can be read settles. -/
theorem Expr.exists_settlesTo {text : List UInt8} {p : Expr α} (hparse : Expr.parse text = .ok p) :
    ∃ n m, p.distribute = .ok n ∧ n.SettlesTo m := by
  have hp := grammatical_parse hparse
  obtain ⟨n, hdist, hn⟩ := hp.arithmetic.exists_distributeIn false
  obtain ⟨m, hm⟩ := hn.exists_derive n.layers
  have hnumbers : n.EveryNumber Scalar.IsDefined :=
    (hereditary_everyNumber _).distributeIn
      (hp.everyNumber (fun _ => DefiniteScalar.isDefined_of_isValue)
        fun _ => DefiniteScalar.isDefined_neg) hdist
  refine ⟨n, m, hdist, hn, fun d hd => (hn.derive_congr hd (le_refl _)).trans hm,
    hn.resolvable_derive (le_refl _) hm, ?_⟩
  exact (hnumbers.derive (fun _ => DefiniteScalar.isDefined_sub_one)
    DefiniteScalar.isDefined_two hm).same_self

/-- A text that can be read is multiplied out to a tree `n`, and from its last layer on the rules make
the same tree `m` of it, with markers on atoms only. The search returns `m` at the depth after the last
layer, which the structural bound allows; a limit of the caller stops it exactly when it is smaller. -/
theorem differentiate_iterations (options : Options) (text : List UInt8) (x : String) (p : Expr α)
    (hx : isIdentifier x = true) (hparse : Expr.parse text = .ok p) :
    ∃ n m : Expr α, p.distribute = .ok n ∧
      (∀ d : ℤ, (n.layers : ℤ) ≤ d → n.derive d = .ok m) ∧ (∀ t ∈ m.targets, t.IsAtom) ∧
      (Differentiation.fixedPoint options n).outcome =
        (if 0 < options.maxIterations ∧ options.maxIterations < (max n.layers 1 + 1 : ℕ) then
          .error (.iterationLimit options.maxIterations.toNat)
        else .ok ⟨m, max n.layers 1 + 1⟩) ∧
      max n.layers 1 + 1 ≤ n.depth + 1 ∧
      (∀ s : Solution α, (differentiate options text x).outcome = .ok s →
        s.iterations = max n.layers 1 + 1) ∧
      ∀ limit, (∃ f : Failure α, (differentiate options text x).outcome = .error f ∧
          f.cause = .iterationLimit limit) ↔
        0 < options.maxIterations ∧ options.maxIterations < (max n.layers 1 + 1 : ℕ) ∧
          limit = options.maxIterations.toNat := by
  obtain ⟨n, m, hdist, h⟩ := Expr.exists_settlesTo hparse
  refine ⟨n, m, hdist, h.derive, h.resolvable.isAtom_of_mem_targets,
    Differentiation.outcome_fixedPoint h options, h.arithmetic.settlingDepth_le, ?_⟩
  simp only [exists_differentiate_error_iff]
  by_cases hcap : 0 < options.maxIterations ∧ options.maxIterations < n.settlingDepth
  · have hpipe := Differentiation.outcome_pipeline_of_lt hx hparse hdist h hcap
    refine ⟨fun s hs => ?_, fun limit => ?_⟩
    · rw [differentiate_eq_ok hs] at hpipe
      cases hpipe
    · rw [hpipe, Except.error.injEq, Cause.iterationLimit.injEq]
      exact ⟨fun h => ⟨hcap.1, hcap.2, h.symm⟩, fun h => h.2.2.symm⟩
  · have hends := Differentiation.endsIn_pipeline_of_not_lt hx hparse hdist h hcap
    refine ⟨fun s hs => ?_, fun limit => ⟨fun h => ?_, fun h => absurd ⟨h.1, h.2.1⟩ hcap⟩⟩
    · exact hends.of_ok (differentiate_eq_ok hs)
    · exact (hends.of_error h).elim

end Definite

/-- A power in a quotient below a product makes three layers: three depths are not enough, four are. -/
theorem differentiate_iterations_quotient :
    isIdentifier "x" = true ∧
      Expr.parse (Utf8.bytes "x^-2/0.5*3") = .ok (.mul (.div (.pow (.var "x") (-2)) (.num 0.5))
        (.num 3) : Expr Float) ∧
      (∃ f : Failure Float, (differentiate ⟨3, true⟩ (Utf8.bytes "x^-2/0.5*3") "x").outcome = .error f ∧
        f.cause = .iterationLimit 3) ∧
      ∃ s : Solution Float, (differentiate ⟨4, true⟩ (Utf8.bytes "x^-2/0.5*3") "x").outcome = .ok s ∧
        s.iterations = 4 := by
  have hx : isIdentifier "x" = true := by decide +kernel
  have hparse : Expr.parse (Utf8.bytes "x^-2/0.5*3") = .ok (.mul (.div (.pow (.var "x") (-2)) (.num 0.5))
      (.num 3) : Expr Float) := by
    decide +kernel
  refine ⟨hx, hparse, ?_, ?_⟩
  · obtain ⟨n, m, hdist, -, -, -, -, -, hlimit⟩ :=
      differentiate_iterations ⟨3, true⟩ (Utf8.bytes "x^-2/0.5*3") "x" _ hx hparse
    cases hdist
    exact (hlimit 3).mpr (by decide +kernel)
  · obtain ⟨s, hs⟩ := exists_ok_of_isOk
      (x := (differentiate (α := Float) ⟨4, true⟩ (Utf8.bytes "x^-2/0.5*3") "x").outcome) (by decide +kernel)
    obtain ⟨n, m, hdist, -, -, -, -, hiterations, -⟩ :=
      differentiate_iterations ⟨4, true⟩ (Utf8.bytes "x^-2/0.5*3") "x" _ hx hparse
    cases hdist
    exact ⟨s, hs, hiterations s hs⟩

end Fluxion
