import MergedWork.MergeProof.Slot
import Mathlib.Data.Nat.ModEq

/-!
# Which slots collide

A slot is what is left of a number that is drawn from the nonce and the chain, modulo the size of the
tree (`toNat_expected`). The multiplier of the generator is odd, so that a step loses nothing modulo
any power of two (`advance_modEq_iff`). So the low bits of a slot depend on the low bits of the nonce
and of the chain id alone, and each of these can be read back from the slot and the other. In
particular, two chains whose ids agree in the low bits get the same slot with every nonce
(`expected_collides_iff`).
-/

namespace MergedWork.Slot

variable {height a b : Nat} {nonce nonce' chainId chainId' : UInt32}

/-! ## Steps of the generator -/

/-- One step of the generator, on numbers that are not cut. -/
def advance (r : Nat) : Nat := r * 1103515245 + 12345

/-- The number of which a slot is the remainder. -/
def draw (nonce chainId : Nat) : Nat := advance (advance nonce + chainId)

/-- The multiplier is odd, so that a step can be undone modulo a power of two. -/
theorem advance_modEq_iff : advance a ≡ advance b [MOD 2 ^ height] ↔ a ≡ b [MOD 2 ^ height] := by
  have hodd : Nat.gcd (2 ^ height) 1103515245 = 1 := Nat.Coprime.pow_left height (by decide)
  constructor
  · intro h
    exact (Nat.ModEq.add_right_cancel' 12345 h).cancel_right_of_coprime hodd
  · intro h
    exact (h.mul_right 1103515245).add_right 12345

theorem toNat_step (r : UInt32) : (step r).toNat = advance r.toNat % 2 ^ 32 := by
  rw [step, UInt32.toNat_add, UInt32.toNat_mul, advance]
  exact Nat.mod_add_mod ..

theorem toNat_step_step (nonce chainId : UInt32) :
    (step (step nonce + chainId)).toNat = draw nonce.toNat chainId.toNat % 2 ^ 32 := by
  rw [toNat_step, UInt32.toNat_add, toNat_step, Nat.mod_add_mod]
  exact advance_modEq_iff.2 (Nat.mod_modEq _ _)

/-- A slot is the remainder of the drawn number, modulo the size of the tree. -/
theorem toNat_expected (hheight : height ≤ 32) (nonce chainId : UInt32) :
    (expected nonce chainId height).toNat = draw nonce.toNat chainId.toNat % 2 ^ height := by
  rw [expected]
  split_ifs with hfull
  · rw [toNat_step_step, Nat.le_antisymm hheight hfull]
  · have hsize : (UInt32.ofNat (1 <<< height)).toNat = 2 ^ height := by
      rw [UInt32.toNat_ofNat', Nat.one_shiftLeft]
      exact Nat.mod_eq_of_lt (Nat.pow_lt_pow_right (by decide) (by omega))
    rw [UInt32.toNat_mod, hsize, toNat_step_step]
    exact Nat.mod_mod_of_dvd _ (Nat.pow_dvd_pow 2 hheight)

/-! ## Congruent slots -/

theorem expected_eq_iff (hheight : height ≤ 32) :
    expected nonce chainId height = expected nonce' chainId' height ↔
      advance nonce.toNat + chainId.toNat ≡ advance nonce'.toNat + chainId'.toNat
        [MOD 2 ^ height] := by
  rw [← UInt32.toNat_inj, toNat_expected hheight, toNat_expected hheight]
  exact advance_modEq_iff

/-- A slot lies in the tree, and in a lower tree its low bits are the slot. With each nonce, two
chains have the same slot exactly if their ids agree modulo the size of the tree, so that no choice
of the nonce can tell them apart or bring others together; and for each chain, two nonces give the
same slot exactly if they agree modulo that size. -/
theorem expected_collides_iff (hheight : height ≤ 32) :
    (∀ nonce chainId, (expected nonce chainId height).toNat < 2 ^ height) ∧
      (∀ nonce chainId, ∀ lower ≤ height, (expected nonce chainId lower).toNat =
        (expected nonce chainId height).toNat % 2 ^ lower) ∧
      (∀ nonce chainId chainId', expected nonce chainId height = expected nonce chainId' height ↔
        chainId.toNat ≡ chainId'.toNat [MOD 2 ^ height]) ∧
      ∀ chainId nonce nonce', expected nonce chainId height = expected nonce' chainId height ↔
        nonce.toNat ≡ nonce'.toNat [MOD 2 ^ height] := by
  refine ⟨fun nonce chainId => ?_, fun nonce chainId lower hlower => ?_,
    fun nonce chainId chainId' => ?_, fun chainId nonce nonce' => ?_⟩
  · rw [toNat_expected hheight]
    exact Nat.mod_lt _ (Nat.two_pow_pos height)
  · rw [toNat_expected hheight, toNat_expected (Nat.le_trans hlower hheight)]
    exact (Nat.mod_mod_of_dvd _ (Nat.pow_dvd_pow 2 hlower)).symm
  · rw [expected_eq_iff hheight]
    exact ⟨Nat.ModEq.add_left_cancel' _, Nat.ModEq.add_left _⟩
  · rw [expected_eq_iff hheight, ← advance_modEq_iff (a := nonce.toNat)]
    exact ⟨Nat.ModEq.add_right_cancel' _, Nat.ModEq.add_right _⟩

/-- The chains 3 and 19 have the same slot of a tree of height four with every nonce, and never in
one of height five. -/
theorem expected_collides_iff_sixteenApart :
    (∀ nonce, expected nonce 3 4 = expected nonce 19 4) ∧
      (∀ nonce, expected nonce 3 5 ≠ expected nonce 19 5) ∧
      (expected 7 3 5).toNat % 2 ^ 4 = (expected 7 3 4).toNat := by
  obtain ⟨-, -, hfour, -⟩ := expected_collides_iff (by decide : 4 ≤ 32)
  obtain ⟨-, hlower, hfive, -⟩ := expected_collides_iff (by decide : 5 ≤ 32)
  refine ⟨fun nonce => (hfour nonce 3 19).2 (by decide), fun nonce h => ?_,
    (hlower 7 3 4 (by decide)).symm⟩
  exact absurd ((hfive nonce 3 19).1 h) (by decide)

end MergedWork.Slot
