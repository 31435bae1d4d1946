import MergedWork.Proofs.Target

/-!
# Work as a measure

The work of a word is the number of hashes that its target asks for on average, where the target is
divided by the weight of the algorithm first. Both divisions round down, and the number is cut off
at the largest word, which happens exactly if the target is below the weight. A smaller target or a
larger weight never gives less work, and over the range of targets and weights that networks use, a
larger weight gives more (`work_measure`).
-/

namespace MergedWork.Compact

variable {c c' : Compact} {t t' w w' : Nat}

/-! ## Expected hashes -/

/-- The number of hashes of which one meets a target on average, after division by the weight. -/
def expectedHashes (t w : Nat) : Nat := 2 ^ 256 / (t / w + 1)

theorem maxWord_eq : maxWord = 2 ^ 256 - 1 := by decide

theorem work_of_target? (ht : c.target? = some t) (hw : 0 < w) :
    c.work w = min maxWord (expectedHashes t w) := by
  rw [work, ht, expectedHashes, ← Nat.one_shiftLeft]
  exact if_neg (Nat.ne_of_gt hw)

theorem expectedHashes_of_lt (h : t < w) : expectedHashes t w = 2 ^ 256 := by
  rw [expectedHashes, Nat.div_eq_of_lt h, Nat.zero_add, Nat.div_one]

/-- From the weight on, at least every other hash fails. -/
theorem expectedHashes_le (h : w ≤ t) (hw : 0 < w) : expectedHashes t w ≤ 2 ^ 255 := by
  have hquot : 1 ≤ t / w := Nat.div_pos h hw
  calc expectedHashes t w ≤ 2 ^ 256 / 2 := Nat.div_le_div_left (by omega) Nat.two_pos
    _ = 2 ^ 255 := by decide

theorem expectedHashes_mono (ht : t ≤ t') (hw : 0 < w) (hle : w ≤ w') :
    expectedHashes t' w ≤ expectedHashes t w' := by
  have hquot : t / w' ≤ t' / w := Nat.div_le_div ht hle (Nat.ne_of_gt hw)
  exact Nat.div_le_div_left (Nat.succ_le_succ hquot) (Nat.succ_pos _)

/-! ## Heavier algorithms -/

/-- What rounding may lose is less than what one unit of weight adds. With `k` hashes for the smaller
weight, `k * t` is at most `2 ^ 256 * w`, so that `k * w'` is at most a quarter of `2 ^ 256`. One more
hash for the larger weight then takes less than the other three quarters. -/
theorem succ_mul_le {k : Nat} (hk : k * (t + 1) ≤ 2 ^ 256 * w) (hlow : 2 ^ 48 ≤ t)
    (hhigh : t < 2 ^ 255) (hlt : w < w') (hw' : w' ≤ 8000000) :
    (k + 1) * (t + w') ≤ 2 ^ 256 * w' := by
  have hweights : w * w' ≤ 8000000 * 8000000 := Nat.mul_le_mul (by omega) hw'
  have hkt : k * t ≤ 2 ^ 256 * w := Nat.le_trans (Nat.mul_le_mul_left k (Nat.le_succ t)) hk
  have hkw : k * w' ≤ 2 ^ 254 := by
    have hscaled : k * w' * 2 ^ 48 ≤ 2 ^ 256 * (8000000 * 8000000) :=
      calc k * w' * 2 ^ 48 ≤ k * w' * t := Nat.mul_le_mul_left _ hlow
        _ = k * t * w' := Nat.mul_right_comm k w' t
        _ ≤ 2 ^ 256 * w * w' := Nat.mul_le_mul_right w' hkt
        _ = 2 ^ 256 * (w * w') := Nat.mul_assoc _ _ _
        _ ≤ 2 ^ 256 * (8000000 * 8000000) := Nat.mul_le_mul_left _ hweights
    omega
  have hexpand : (k + 1) * (t + w') = k * t + k * w' + t + w' := by
    rw [Nat.succ_mul, Nat.mul_add]
    omega
  omega

theorem expectedHashes_lt (hlow : 2 ^ 48 ≤ t) (hhigh : t < 2 ^ 255) (hw : 0 < w) (hlt : w < w')
    (hw' : w' ≤ 8000000) : expectedHashes t w < expectedHashes t w' := by
  have hbelow : t + 1 ≤ w * (t / w + 1) := Nat.lt_mul_div_succ t hw
  have habove : w' * (t / w' + 1) ≤ t + w' := by
    rw [Nat.mul_add, Nat.mul_one]
    exact Nat.add_le_add_right (Nat.mul_div_le t w') w'
  have hk : expectedHashes t w * (t + 1) ≤ 2 ^ 256 * w :=
    calc expectedHashes t w * (t + 1) ≤ expectedHashes t w * (w * (t / w + 1)) :=
          Nat.mul_le_mul_left _ hbelow
      _ = expectedHashes t w * (t / w + 1) * w := by rw [Nat.mul_comm w, Nat.mul_assoc]
      _ ≤ 2 ^ 256 * w := Nat.mul_le_mul_right w (Nat.div_mul_le_self _ _)
  have hsucc : w' * ((expectedHashes t w + 1) * (t / w' + 1)) ≤ w' * 2 ^ 256 :=
    calc w' * ((expectedHashes t w + 1) * (t / w' + 1))
        = (expectedHashes t w + 1) * (w' * (t / w' + 1)) := Nat.mul_left_comm _ _ _
      _ ≤ (expectedHashes t w + 1) * (t + w') := Nat.mul_le_mul_left _ habove
      _ ≤ 2 ^ 256 * w' := succ_mul_le hk hlow hhigh hlt hw'
      _ = w' * 2 ^ 256 := Nat.mul_comm _ _
  have hle := Nat.le_of_mul_le_mul_left hsucc (Nat.zero_lt_of_lt hlt)
  exact Nat.lt_of_succ_le ((Nat.le_div_iff_mul_le (Nat.succ_pos _)).2 hle)

/-! ## Work -/

theorem one_le_work (ht : c.target? = some t) (hw : 0 < w) : 1 ≤ c.work w :=
  (target?_eq_some_iff.1 ht).one_le_work hw

theorem work_eq_zero_iff : c.work w = 0 ↔ c.isValid = false ∨ w = 0 := by
  cases ht : c.target? with
  | none =>
    have hinvalid : c.isValid = false := by simpa [target?] using ht
    simp [work, ht, hinvalid]
  | some t =>
    have hvalid : c.isValid = true := by
      by_contra h
      simp [target?, h] at ht
    rcases Nat.eq_zero_or_pos w with rfl | hw
    · simp [work, ht]
    · have hpos := one_le_work ht hw
      simp only [hvalid, Bool.true_eq_false, false_or]
      omega

theorem work_of_le (ht : c.target? = some t) (hw : 0 < w) (hle : w ≤ t) :
    c.work w = expectedHashes t w := by
  have hhalf := expectedHashes_le hle hw
  rw [work_of_target? ht hw, maxWord_eq]
  omega

theorem work_eq_maxWord_iff (ht : c.target? = some t) (hw : 0 < w) :
    c.work w = 2 ^ 256 - 1 ↔ t < w := by
  constructor
  · intro hmax
    by_contra hnot
    have hle := Nat.le_of_not_lt hnot
    have hhalf := expectedHashes_le hle hw
    rw [work_of_le ht hw hle] at hmax
    omega
  · intro hlt
    rw [work_of_target? ht hw, expectedHashes_of_lt hlt, maxWord_eq]
    decide

theorem work_mono (ht : c.target? = some t) (ht' : c'.target? = some t') (hle : t ≤ t') (hw : 0 < w)
    (hww : w ≤ w') : c'.work w ≤ c.work w' := by
  have hexpected := expectedHashes_mono hle hw hww
  rw [work_of_target? ht (by omega), work_of_target? ht' hw]
  omega

/-- There is no work exactly for a word that is no target, or without weight. Otherwise the work is
at its maximum exactly if the target is below the weight, and else it is the number of hashes that
are expected. A target that is not larger, at a weight that is not smaller, gives as much work or
more. Over targets of 49 to 255 bits, and weights up to that of the heaviest algorithm, a larger
weight gives more work. -/
theorem work_measure (c : Compact) (w : Nat) :
    (c.work w = 0 ↔ c.isValid = false ∨ w = 0) ∧
      ∀ t, c.target? = some t → 0 < w →
        (c.work w = 2 ^ 256 - 1 ↔ t < w) ∧ (w ≤ t → c.work w = 2 ^ 256 / (t / w + 1)) ∧
        (∀ (c' : Compact) t' w', c'.target? = some t' → t' ≤ t → w ≤ w' →
          c.work w ≤ c'.work w' ∧ 1 ≤ c.work w) ∧
        ∀ w', 2 ^ 48 ≤ t → t < 2 ^ 255 → w < w' → w' ≤ 8000000 → c.work w < c.work w' := by
  refine ⟨work_eq_zero_iff, fun t ht hw => ⟨work_eq_maxWord_iff ht hw, work_of_le ht hw, ?_, ?_⟩⟩
  · intro c' t' w' ht' hle hww
    exact ⟨work_mono ht' ht hle hw hww, one_le_work ht hw⟩
  · intro w' hlow hhigh hlt hw'
    rw [work_of_le ht hw (by omega), work_of_le ht (by omega) (by omega)]
    exact expectedHashes_lt hlow hhigh hw hlt hw'

/-- Twice the weight gives more work at the easiest target below `2 ^ 255` too, though one hash in
two meets that. -/
theorem work_measure_easiest :
    (⟨0x207fffff⟩ : Compact).target? = some (0x7fffff * 2 ^ 232) ∧
      (⟨0x207fffff⟩ : Compact).work 1 = 2 ∧
      (⟨0x207fffff⟩ : Compact).work 1 < (⟨0x207fffff⟩ : Compact).work 2 := by
  have ht : (⟨0x207fffff⟩ : Compact).target? = some (0x7fffff * 2 ^ 232) := by decide +kernel
  obtain ⟨-, hmeasure⟩ := work_measure ⟨0x207fffff⟩ 1
  obtain ⟨-, -, -, hstrict⟩ := hmeasure _ ht Nat.one_pos
  exact ⟨ht, by decide +kernel, hstrict 2 (by decide) (by decide) (by decide) (by decide)⟩

end MergedWork.Compact
