import QuantumCompiler.Proofs.Numeric.Exact
import QuantumCompiler.Proofs.Numeric.Walsh
import QuantumCompiler.Synthesis.Shannon

/-!
# Multiplexed rotations are exact

While its target is flipped a rotation turns it the other way. For a value of the controls the turns of a
multiplexed rotation add up to the angle of this value, and the flips come in even number, so the target is
turned by the angle and by nothing else. Behind `i` rungs of the ladder the target has been flipped as often
as the value shares bits with the `i`-th code, up to an even number; this is the invariant of a run.
-/
namespace QuantumCompiler

/-! ## What the steps do to their target -/

namespace ShannonStep

variable {R : Type}

/-- The bits of controls that read a number; the first control is the most significant one. -/
def bitsOf (controls : List Nat) (j : Nat) (c : Nat) : Bool :=
  j.testBit (controls.length - 1 - controls.idxOf c)

/-- The step is a `cx` whose control is set. -/
def flips (x : Nat → Bool) : ShannonStep R → Bool
  | cx control _ => x control
  | _ => false

/-- The angle of a rotation. -/
def angle? : ShannonStep R → Option R
  | ry _ θ | rz _ θ => some θ
  | _ => none

/-- The sum of the angles of all rotations, those behind an odd number of flips taken negative. The number
counts the flips so far. -/
def turn (x : Nat → Bool) : Nat → List (ShannonStep ℝ) → ℝ
  | _, [] => 0
  | n, s :: steps => (-1) ^ n * s.angle?.getD 0 + turn x (n + (s.flips x).toNat) steps

variable {x : Nat → Bool}

theorem turn_append (n : Nat) (a b : List (ShannonStep ℝ)) :
    turn x n (a ++ b) = turn x n a + turn x (n + a.countP (flips x)) b := by
  induction a generalizing n with
  | nil => simp [turn]
  | cons s a ih =>
    have hcount : n + (s.flips x).toNat + a.countP (flips x) = n + (s :: a).countP (flips x) := by
      rw [List.countP_cons, Nat.add_assoc, Nat.add_comm (a.countP _)]
      cases s.flips x <;> rfl
    rw [List.cons_append, turn, turn, ih, hcount, add_assoc]

theorem flips_of_angle? {s : ShannonStep R} {θ : R} (h : s.angle? = some θ) :
    s.flips x = false := by
  cases s with
  | cx control target => cases h
  | _ => rfl

end ShannonStep

namespace Shannon

open ShannonStep

/-! ## Rungs -/

section Rung

variable {R : Type} [Scalar R]

/-- A rotation, unless its angle is negligible, and the `cx` behind it. -/
def rung (rotation : Nat → R → ShannonStep R) (angles : List R) (target : Nat)
    (controls : List Nat) (i : Nat) : List (ShannonStep R) :=
  (if Scalar.gt (Scalar.abs (ladderAngle angles i)) negligible then
      [rotation target (ladderAngle angles i)] else []) ++
    (controls.reverse[trailingZeros (gray i ^^^ gray ((i + 1) % angles.length))]?).toList.map
      (cx · target)

/-- The rungs below `i`. -/
def rungs (rotation : Nat → R → ShannonStep R) (angles : List R) (target : Nat)
    (controls : List Nat) (i : Nat) : List (ShannonStep R) :=
  (List.range i).flatMap (rung rotation angles target controls)

theorem rungs_succ (rotation : Nat → R → ShannonStep R) (angles : List R) (target : Nat)
    (controls : List Nat) (i : Nat) : rungs rotation angles target controls (i + 1) =
      rungs rotation angles target controls i ++ rung rotation angles target controls i := by
  rw [rungs, List.range_succ, List.flatMap_append, List.flatMap_singleton, rungs]

theorem multiplexed_eq (rotation : Nat → R → ShannonStep R) (angles : List R) (target : Nat)
    (controls : List Nat) : multiplexed rotation angles target controls =
      rungs rotation angles target controls angles.length := by
  refine List.flatMap_congr fun i _ => ?_
  simp only [rung]
  congr 1
  cases controls.reverse[trailingZeros (gray i ^^^ gray ((i + 1) % angles.length))]? <;> rfl

end Rung

attribute [local instance] Scalar.real

section Ladder

variable {rotation : Nat → ℝ → ShannonStep ℝ} {angles : List ℝ} {target : Nat} {controls : List Nat}
  {i j : Nat}

/-- The `cx` of a rung sits on the control whose bit changes, so that a value flips the target by what it
shares with the change. -/
theorem countP_rung (hr : ∀ θ, (rotation target θ).angle? = some θ) (hd : controls.Nodup)
    (hlen : angles.length = 2 ^ controls.length) (hi : i < 2 ^ controls.length) (j : Nat) :
    (rung rotation angles target controls i).countP (flips (bitsOf controls j)) =
      (sharedParity j (gray i ^^^ gray ((i + 1) % 2 ^ controls.length))).toNat := by
  have hrotation : (if Scalar.gt (Scalar.abs (ladderAngle angles i)) negligible then
      [rotation target (ladderAngle angles i)] else []).countP (flips (bitsOf controls j)) = 0 := by
    split
    · simp [flips_of_angle? (hr _)]
    · rfl
  rw [rung, List.countP_append, hrotation, Nat.zero_add, hlen]
  by_cases hk : controls.length = 0
  · obtain rfl := List.length_eq_zero_iff.mp hk
    obtain rfl : i = 0 := by simpa using hi
    simp [sharedParity_zero]
  · obtain ⟨b, hb, hchange⟩ := exists_gray_xor (Nat.pos_of_ne_zero hk) hi
    have hself : controls.length - 1 - (controls.length - 1 - b) = b := by omega
    have hbit : bitsOf controls j controls[controls.length - 1 - b] = j.testBit b := by
      rw [bitsOf, hd.idxOf_getElem, hself]
    rw [hchange, trailingZeros_two_pow, sharedParity_two_pow, List.getElem?_reverse hb,
      List.getElem?_eq_getElem (by omega)]
    simp only [Option.toList_some, List.map_cons, List.map_nil, List.countP_singleton, flips, hbit]
    cases j.testBit b <;> rfl

/-- Where a rotation is left out its angle is zero. -/
theorem turn_rung (hr : ∀ θ, (rotation target θ).angle? = some θ) (x : Nat → Bool) (n : Nat) :
    turn x n (rung rotation angles target controls i) = (-1) ^ n * ladderAngle angles i := by
  have hcx (m : Nat) (cs : List Nat) : turn x m (cs.map (cx · target)) = 0 := by
    induction cs generalizing m with
    | nil => rfl
    | cons c cs ih =>
      have hnone : (cx c target : ShannonStep ℝ).angle? = none := rfl
      rw [List.map_cons, turn, ih, hnone, Option.getD_none, mul_zero, add_zero]
  rw [rung, turn_append, hcx, add_zero]
  split
  · rw [turn, turn, hr, Option.getD_some, add_zero]
  · rename_i hgt
    have hzero : ladderAngle angles i = 0 := by
      by_contra hne
      exact hgt (decide_eq_true (abs_pos.mpr hne))
    rw [turn, hzero, mul_zero]

/-- The mean of the angles, with the signs of the parities that their values share with the code. -/
theorem ladderAngle_eq (angles : List ℝ) (i : Nat) :
    ladderAngle angles i = (∑ l : Fin angles.length,
      paritySign (sharedParity l (gray i)) * angles[l]) / angles.length := by
  have hterm (x : ℝ × Nat) : (if popCount (x.2 &&& gray i) % 2 = 0 then x.1 else -x.1) =
      paritySign (sharedParity x.2 (gray i)) * x.1 := by
    rw [paritySign, sharedParity]
    rcases Nat.mod_two_eq_zero_or_one (popCount (x.2 &&& gray i)) with h | h <;> simp [h]
  have hsum : (angles.zipIdx.map fun x => paritySign (sharedParity x.2 (gray i)) * x.1).sum =
      ∑ l : Fin angles.length, paritySign (sharedParity l (gray i)) * angles[l] := by
    rw [← List.sum_ofFn]
    congr 1
    exact List.ext_getElem (by simp) fun l h₁ h₂ => by simp
  rw [ladderAngle, Scalar.real_sum]
  simp only [hterm, hsum]
  rfl

/-! ## The ladder -/

/-- Behind the rungs below `i` the target is flipped as the parity shared with the `i`-th code says. -/
theorem sign_countP_rungs (hr : ∀ θ, (rotation target θ).angle? = some θ) (hd : controls.Nodup)
    (hlen : angles.length = 2 ^ controls.length) (hi : i ≤ 2 ^ controls.length) (j : Nat) :
    (-1) ^ (rungs rotation angles target controls i).countP (flips (bitsOf controls j)) =
      paritySign (sharedParity j (gray (i % 2 ^ controls.length))) := by
  induction i with
  | zero =>
    rw [Nat.zero_mod, show gray 0 = 0 from rfl, sharedParity_zero]
    rfl
  | succ i ih =>
    have hsign (odd : Bool) : (-1 : ℝ) ^ odd.toNat = paritySign odd := by
      cases odd <;> simp [paritySign]
    rw [rungs_succ, List.countP_append, countP_rung hr hd hlen hi, pow_add, ih (by omega), hsign,
      sharedParity_xor, Nat.mod_eq_of_lt hi, paritySign_xor, ← mul_assoc, paritySign_mul_self, one_mul]

/-- The rungs below `i` turn the target by their angles, each with the sign of its code. -/
theorem turn_rungs (hr : ∀ θ, (rotation target θ).angle? = some θ) (hd : controls.Nodup)
    (hlen : angles.length = 2 ^ controls.length) (hi : i ≤ 2 ^ controls.length) (j : Nat) :
    turn (bitsOf controls j) 0 (rungs rotation angles target controls i) =
      ∑ m ∈ Finset.range i, paritySign (sharedParity j (gray m)) * ladderAngle angles m := by
  induction i with
  | zero => rfl
  | succ i ih =>
    rw [rungs_succ, turn_append, ih (by omega), turn_rung hr, Nat.zero_add,
      sign_countP_rungs hr hd hlen (by omega), Nat.mod_eq_of_lt hi, Finset.sum_range_succ]

/-- The signed means give the angles back. -/
theorem sum_ladderAngle {n : Nat} (hlen : angles.length = 2 ^ n) (hj : j < angles.length) :
    ∑ m ∈ Finset.range (2 ^ n), paritySign (sharedParity j (gray m)) * ladderAngle angles m =
      angles[j] := by
  have hpos : (2 : ℝ) ^ n ≠ 0 := pow_ne_zero n two_ne_zero
  have hlen' : (angles.length : ℝ) = 2 ^ n := by rw [hlen, Nat.cast_pow, Nat.cast_ofNat]
  have hsum (l : Fin angles.length) := sum_paritySign (hj.trans_eq hlen) (l.isLt.trans_eq hlen)
  calc ∑ m ∈ Finset.range (2 ^ n), paritySign (sharedParity j (gray m)) * ladderAngle angles m
      = ∑ m ∈ Finset.range (2 ^ n), ∑ l : Fin angles.length,
          paritySign (sharedParity j (gray m)) * paritySign (sharedParity l (gray m)) *
            (angles[l] / 2 ^ n) := by
        refine Finset.sum_congr rfl fun m _ => ?_
        rw [ladderAngle_eq, hlen', Finset.sum_div, Finset.mul_sum]
        exact Finset.sum_congr rfl fun l _ => by ring
    _ = ∑ g ∈ Finset.range (2 ^ n), ∑ l : Fin angles.length,
          paritySign (sharedParity j g) * paritySign (sharedParity l g) * (angles[l] / 2 ^ n) :=
        sum_gray n fun g => ∑ l : Fin angles.length,
          paritySign (sharedParity j g) * paritySign (sharedParity l g) * (angles[l] / 2 ^ n)
    _ = ∑ l : Fin angles.length, (if j = l then 2 ^ n else 0) * (angles[l] / 2 ^ n) := by
        rw [Finset.sum_comm]
        refine Finset.sum_congr rfl fun l _ => ?_
        rw [← Finset.sum_mul, hsum]
    _ = angles[j] := by
        rw [Finset.sum_eq_single ⟨j, hj⟩]
        · rw [if_pos rfl]
          exact mul_div_cancel₀ _ hpos
        · intro l _ hl
          rw [if_neg fun he => hl (Fin.ext he.symm), zero_mul]
        · simp

/-- A multiplexed rotation is exact. It consists of rotations of its target and of `cx` gates from its
controls. Where the controls read `j`, the first one being the most significant, its rotations add up to the
`j`-th angle, those behind an odd number of flips taken negative, and it flips the target an even number of
times. -/
theorem multiplexed_turns (haxis : rotation = ry ∨ rotation = rz) (hd : controls.Nodup)
    (ht : target ∉ controls) (hlen : angles.length = 2 ^ controls.length) :
    (∀ s ∈ multiplexed rotation angles target controls,
      (∃ θ, s = rotation target θ) ∨ ∃ c ∈ controls, c ≠ target ∧ s = cx c target) ∧
    ∀ j (hj : j < angles.length),
      turn (bitsOf controls j) 0 (multiplexed rotation angles target controls) = angles[j] ∧
      Even ((multiplexed rotation angles target controls).countP (flips (bitsOf controls j))) := by
  have hr (θ : ℝ) : (rotation target θ).angle? = some θ := by
    rcases haxis with rfl | rfl <;> rfl
  have hall : multiplexed rotation angles target controls =
      rungs rotation angles target controls (2 ^ controls.length) := by
    rw [multiplexed_eq, hlen]
  constructor
  · intro s hs
    rw [multiplexed_eq] at hs
    obtain ⟨i, -, hs⟩ := List.mem_flatMap.mp hs
    rcases List.mem_append.mp hs with hs | hs
    · split at hs
      · exact .inl ⟨_, List.mem_singleton.mp hs⟩
      · cases hs
    · obtain ⟨c, hc, rfl⟩ := List.mem_map.mp hs
      have hmem : c ∈ controls := by
        simpa using List.mem_of_getElem? (Option.mem_toList.mp hc)
      exact .inr ⟨c, hmem, fun he => ht (he ▸ hmem), rfl⟩
  · intro j hj
    rw [hall]
    refine ⟨(turn_rungs hr hd hlen le_rfl j).trans (sum_ladderAngle hlen hj), ?_⟩
    have hsign := sign_countP_rungs hr hd hlen le_rfl j
    rw [Nat.mod_self, show gray 0 = 0 from rfl, sharedParity_zero] at hsign
    exact (neg_one_pow_eq_one_iff_even (by norm_num)).mp hsign

/-- Four angles, two controls behind the target in the order of the operands. -/
theorem multiplexed_turns_four :
    ((rz : Nat → ℝ → ShannonStep ℝ) = ry ∨ (rz : Nat → ℝ → ShannonStep ℝ) = rz) ∧
    [2, 1].Nodup ∧ 0 ∉ [2, 1] ∧ ([1, 2, 3, 5] : List ℝ).length = 2 ^ [2, 1].length ∧
    turn (bitsOf [2, 1] 2) 0 (multiplexed rz ([1, 2, 3, 5] : List ℝ) 0 [2, 1]) = 3 := by
  have hlen : ([1, 2, 3, 5] : List ℝ).length = 2 ^ [2, 1].length := rfl
  have haxis : (rz : Nat → ℝ → ShannonStep ℝ) = ry ∨ (rz : Nat → ℝ → ShannonStep ℝ) = rz := .inr rfl
  exact ⟨haxis, by decide, by decide, hlen,
    ((multiplexed_turns haxis (by decide) (by decide) hlen).2 2 (by decide)).1⟩

end Ladder

end Shannon

end QuantumCompiler
