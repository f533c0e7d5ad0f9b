/-
# Which bits and which buffers the passes take

With two digit sizes `a` and `a + 1`, of which the smaller one is taken `maxAlt` times, the bit where a
pass begins has a closed form (`bitAfter`).  As long as `maxAlt` is at most what the larger digits would
have too many, the passes reach the last bit when they have been run as often as the larger digit alone
needs (`bitAfter_last`), and not before (`bitAfter_lt`): the other digit size does not change the number
of passes.  If only one digit size is there, `maxAlt` is zero.

The first pass reads the input, and the later ones go to and fro between two buffers (`location`).  The
last one is the alternate buffer of the user, if the input must be kept; then the input is none of
them.
-/
import Cccl.RadixSort.Dispatch

namespace Cccl.RadixSort

variable {K V : Type}

/-! ## 1. Bits -/

theorem ceilDiv_spec {a b : ℕ} (ha : 0 < a) (hb : 0 < b) :
    0 < ceilDiv a b ∧ (ceilDiv a b - 1) * b < a ∧ a ≤ ceilDiv a b * b := by
  have hdiv := Nat.div_add_mod (a + b - 1) b
  have hmod := Nat.mod_lt (a + b - 1) hb
  have hpos : 0 < ceilDiv a b := Nat.div_pos (by omega) hb
  rw [ceilDiv] at hpos ⊢
  rw [Nat.sub_one_mul, Nat.mul_comm _ b]
  have hle : b * 1 ≤ b * ((a + b - 1) / b) := Nat.mul_le_mul_left b hpos
  exact ⟨hpos, by omega, by omega⟩

/-- The bit where the pass `m` begins. -/
def bitAfter (b e altBits maxAlt m : ℕ) : ℕ := min e (b + m * altBits + (m - maxAlt))

/-- How many passes there are, of which at most so many may take the smaller digit. -/
structure PassCount (b e altBits maxAlt numPasses : ℕ) : Prop where
  begin_lt : b < e
  altBits_pos : 0 < altBits
  enough : maxAlt + (e - b) ≤ numPasses * (altBits + 1)
  needed : (numPasses - 1) * (altBits + 1) < e - b

namespace PassCount

variable {b e altBits maxAlt numPasses m : ℕ}

theorem bitAfter_zero (h : PassCount b e altBits maxAlt numPasses) :
    bitAfter b e altBits maxAlt 0 = b := by
  have := h.begin_lt
  rw [bitAfter, Nat.zero_mul, Nat.zero_sub]
  omega

theorem pos (h : PassCount b e altBits maxAlt numPasses) : 0 < numPasses := by
  have henough := h.enough
  have hlt := h.begin_lt
  rcases Nat.eq_zero_or_pos numPasses with rfl | hpos
  · rw [Nat.zero_mul] at henough
    omega
  · exact hpos

theorem bitAfter_last (h : PassCount b e altBits maxAlt numPasses) :
    bitAfter b e altBits maxAlt numPasses = e := by
  have henough := h.enough
  rw [Nat.mul_add_one] at henough
  rw [bitAfter]
  omega

theorem bitAfter_lt (h : PassCount b e altBits maxAlt numPasses) (hm : m < numPasses) :
    bitAfter b e altBits maxAlt m = b + m * altBits + (m - maxAlt) ∧
      bitAfter b e altBits maxAlt m < e := by
  have hneeded := h.needed
  have hle : m * (altBits + 1) ≤ (numPasses - 1) * (altBits + 1) :=
    Nat.mul_le_mul_right _ (Nat.le_sub_one_of_lt hm)
  rw [Nat.mul_add_one] at hle
  rw [bitAfter]
  omega

theorem bitAfter_succ (h : PassCount b e altBits maxAlt numPasses) (hm : m < numPasses) :
    bitAfter b e altBits maxAlt m +
      min (if bitAfter b e altBits maxAlt m < min e (b + maxAlt * altBits) then altBits
        else altBits + 1) (e - bitAfter b e altBits maxAlt m) =
      bitAfter b e altBits maxAlt (m + 1) := by
  obtain ⟨heq, hlt⟩ := h.bitAfter_lt hm
  have halt : bitAfter b e altBits maxAlt m < min e (b + maxAlt * altBits) ↔ m < maxAlt := by
    rw [Nat.lt_min, heq]
    rw [heq] at hlt
    constructor
    · rintro ⟨-, hbefore⟩
      refine Nat.not_le.mp fun hge => ?_
      have := Nat.mul_le_mul_right altBits hge
      omega
    · intro hbefore
      refine ⟨hlt, ?_⟩
      have hmul := Nat.mul_le_mul_right altBits (Nat.succ_le_of_lt hbefore)
      rw [Nat.succ_mul] at hmul
      have hpos := h.altBits_pos
      omega
  rw [if_congr halt rfl rfl, bitAfter.eq_def b e altBits maxAlt (m + 1), Nat.succ_mul]
  split
  · omega
  · omega

theorem bitAfter_lt_succ (h : PassCount b e altBits maxAlt numPasses) (hm : m < numPasses) :
    bitAfter b e altBits maxAlt m < bitAfter b e altBits maxAlt (m + 1) := by
  have hpos := h.altBits_pos
  obtain ⟨-, hlt⟩ := h.bitAfter_lt hm
  rw [← h.bitAfter_succ hm]
  split
  · omega
  · omega

end PassCount

theorem bitAfter_mono (b e altBits maxAlt : ℕ) {m n : ℕ} (h : m ≤ n) :
    bitAfter b e altBits maxAlt m ≤ bitAfter b e altBits maxAlt n := by
  have := Nat.mul_le_mul_right altBits h
  rw [bitAfter, bitAfter]
  omega

theorem le_bitAfter {b e : ℕ} (altBits maxAlt m : ℕ) (h : b ≤ e) :
    b ≤ bitAfter b e altBits maxAlt m := by
  rw [bitAfter]
  omega

/-! ## 2. Buffers -/

theorem xor_one (i : Fin 2) : i ^^^ 1 = i + 1 := by
  revert i
  decide

namespace DispatchImpl

variable {D : DispatchImpl K} {numPasses index : ℕ} {selector : Fin 2}

theorem location_even (b : DoubleBuffer) (allocation : Buffer) {m : ℕ} (hm : m % 2 = 0) :
    D.location numPasses allocation b (m + 1) =
      if D.canOverwriteSourceBuffer || numPasses % 2 == 1 then b.alternate else allocation := by
  have hzero : Fin.ofNat 2 m = 0 := Fin.ext hm
  rw [location, hzero]
  rfl

theorem location_odd (b : DoubleBuffer) (allocation : Buffer) {m : ℕ} (hm : m % 2 = 1) :
    D.location numPasses allocation b (m + 1) =
      if D.canOverwriteSourceBuffer then b.current
      else if numPasses % 2 == 1 then allocation
      else b.alternate := by
  have hone : Fin.ofNat 2 m = 1 := Fin.ext hm
  rw [location, hone]
  rfl

theorem user_alternate_ne (selector : Fin 2) :
    (DoubleBuffer.mk .user selector).alternate ≠ (DoubleBuffer.mk .user selector).current := by
  intro h
  simp only [DoubleBuffer.alternate, DoubleBuffer.current, Buffer.user.injEq] at h
  revert selector
  decide

/-- **No pass writes the buffer that it reads.** -/
theorem location_ne (m : ℕ) :
    D.location numPasses (.allocation index) ⟨.user, selector⟩ m ≠
      D.location numPasses (.allocation index) ⟨.user, selector⟩ (m + 1) := by
  have hne := user_alternate_ne selector
  have hcurrent : (DoubleBuffer.mk .user selector).current = .user selector := rfl
  have halternate : (DoubleBuffer.mk .user selector).alternate = .user (selector ^^^ 1) := rfl
  cases m with
  | zero =>
    rw [location_even _ _ rfl, location]
    split
    · exact hne.symm
    · rw [hcurrent]
      simp
  | succ m =>
    rcases Nat.mod_two_eq_zero_or_one m with hm | hm
    · rw [location_even _ _ hm, location_odd _ _ (show (m + 1) % 2 = 1 by omega)]
      rw [hcurrent, halternate] at hne ⊢
      cases D.canOverwriteSourceBuffer
      · cases numPasses % 2 == 1
        · simp
        · simp
      · simpa using hne
    · rw [location_odd _ _ hm, location_even _ _ (show (m + 1) % 2 = 0 by omega)]
      rw [hcurrent, halternate] at hne ⊢
      cases D.canOverwriteSourceBuffer
      · cases numPasses % 2 == 1
        · simp
        · simp
      · simpa using hne.symm

/-- **The input is not written,** if it must be kept. -/
theorem location_ne_input (hkeep : D.canOverwriteSourceBuffer = false) (m : ℕ) :
    D.location numPasses (.allocation index) ⟨.user, selector⟩ (m + 1) ≠ .user selector := by
  have hne := user_alternate_ne selector
  have hcurrent : (DoubleBuffer.mk .user selector).current = .user selector := rfl
  rw [hcurrent] at hne
  rcases Nat.mod_two_eq_zero_or_one m with hm | hm
  · rw [location_even _ _ hm]
    split
    · exact hne
    · simp
  · rw [location_odd _ _ hm, hkeep, if_neg (by simp)]
    split
    · simp
    · exact hne

/-- **The last pass writes the buffer that is the current one then.** -/
theorem location_last (hpos : 0 < numPasses) :
    D.location numPasses (.allocation index) ⟨.user, selector⟩ numPasses =
      .user (selector + Fin.ofNat 2 (if D.canOverwriteSourceBuffer then numPasses else 1)) := by
  obtain ⟨m, rfl⟩ := Nat.exists_eq_add_one.mpr hpos
  have halternate : (DoubleBuffer.mk .user selector).alternate = .user (selector + 1) :=
    congrArg Buffer.user (xor_one selector)
  rcases Nat.mod_two_eq_zero_or_one m with hm | hm
  · have hodd : (m + 1) % 2 = 1 := by omega
    have hone : Fin.ofNat 2 (m + 1) = 1 := Fin.ext hodd
    rw [location_even _ _ hm, hodd, if_pos (by simp), halternate]
    split
    · rw [hone]
    · rfl
  · have heven : (m + 1) % 2 = 0 := by omega
    have hzero : Fin.ofNat 2 (m + 1) = 0 := Fin.ext heven
    rw [location_odd _ _ hm, heven]
    split
    · rw [hzero, Fin.add_zero]
      rfl
    · rw [if_neg (by simp), halternate]
      rfl

variable (D numPasses index selector) in
/-- Each buffer is the input, the alternate one or the allocation; this one only if the input is kept and
there is more than one pass. -/
theorem location_cases (m : ℕ) :
    D.location numPasses (.allocation index) ⟨.user, selector⟩ m = .user selector ∨
    D.location numPasses (.allocation index) ⟨.user, selector⟩ m = .user (selector + 1) ∨
    D.location numPasses (.allocation index) ⟨.user, selector⟩ m = .allocation index ∧
      D.canOverwriteSourceBuffer = false ∧ (m ≤ numPasses → 1 < numPasses) := by
  have halternate : (DoubleBuffer.mk .user selector).alternate = .user (selector + 1) :=
    congrArg Buffer.user (xor_one selector)
  cases m with
  | zero => exact Or.inl rfl
  | succ m =>
    rcases Nat.mod_two_eq_zero_or_one m with hm | hm
    · rw [location_even _ _ hm]
      cases D.canOverwriteSourceBuffer
      · cases hodd : numPasses % 2 == 1
        · refine Or.inr (Or.inr ⟨rfl, rfl, fun hle => ?_⟩)
          rw [beq_eq_false_iff_ne] at hodd
          omega
        · exact Or.inr (Or.inl halternate)
      · exact Or.inr (Or.inl halternate)
    · rw [location_odd _ _ hm]
      cases D.canOverwriteSourceBuffer
      · cases numPasses % 2 == 1
        · exact Or.inr (Or.inl halternate)
        · exact Or.inr (Or.inr ⟨rfl, rfl, fun hle => by omega⟩)
      · exact Or.inl rfl

end DispatchImpl

end Cccl.RadixSort
