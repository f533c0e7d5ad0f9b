/-
# `philox_engine`

The engine encrypts a counter and hands out the words of the result one by one; then it adds one to the counter.
So `discard` only has to add to the counter.  Its loop may lose a carry (`PhiloxCounter`), and where it does not,
the engine is left as after so many calls (`discard_equal_iff`).

Equal does not mean the same: when all words of a block are handed out, the buffer is not looked at any more, and
`discard` leaves an old one there.  Engines that are equal in this sense stay equal (`Equal.next`).
-/
import Cccl.Cmath.MulHi
import Cccl.Random.PhiloxCounter
import Mathlib

namespace Cccl.Random

/-! ## 1. The engine -/

/-- The arguments of the template, as the assertions let them pass. -/
structure PhiloxParameters where
  /-- The digits of the result type. -/
  digits : ℕ
  wordSize : ℕ
  wordCount : ℕ
  roundCount : ℕ
  constants : List ℕ
  /-- Whether the platform has integers of 128 bits. -/
  hasInt128 : Bool
  supported : digits = 8 ∨ digits = 16 ∨ digits = 32 ∨ digits = 64 ∨ digits = 128
  wordCount_eq : wordCount = 2 ∨ wordCount = 4
  length_constants : constants.length = wordCount
  roundCount_pos : 0 < roundCount
  wordSize_pos : 0 < wordSize
  wordSize_le : wordSize ≤ digits

/-- The counter, the key, the buffer, and the place of the word that was handed out last. -/
structure PhiloxEngine where
  x : List ℕ
  k : List ℕ
  y : List ℕ
  j : ℕ
  deriving DecidableEq

namespace PhiloxEngine

variable (P : PhiloxParameters)

/-- `& max()`. -/
def word (v : ℕ) : ℕ := v % 2 ^ P.wordSize

def mulhiloFallback (a b : ℕ) : ℕ × ℕ :=
  let half := P.wordSize / 2
  let loMask := 1 <<< half - 1
  let lo := a * b % 2 ^ P.digits
  let ahi := a >>> half
  let alo := a &&& loMask
  let bhi := b >>> half
  let blo := b &&& loMask
  let ahbl := ahi * blo % 2 ^ P.digits
  let albh := alo * bhi % 2 ^ P.digits
  let cross := ((ahbl &&& loMask) + (albh &&& loMask)) % 2 ^ P.digits
  let hi := (ahi * bhi + (ahbl >>> half) + (albh >>> half)) % 2 ^ P.digits
  let hi := (hi + (cross >>> half)) % 2 ^ P.digits
  let hi := (hi + if lo >>> half < cross &&& loMask then 1 else 0) % 2 ^ P.digits
  (word P hi, word P lo)

def mulhilo (a b : ℕ) : ℕ × ℕ :=
  if P.wordSize = 32 ∨ P.wordSize = 64 then
    (Cmath.mulHi P.hasInt128 P.wordSize (a % 2 ^ P.wordSize) (b % 2 ^ P.wordSize),
      word P (a * b % 2 ^ P.digits))
  else mulhiloFallback P a b

/-- A round of `__philox`, on `__S` and `__K`. -/
def philoxRound : List ℕ × List ℕ → List ℕ × List ℕ
  | ([s0, s1], [k0]) =>
    let p := mulhilo P s0 (P.constants.getD 0 0)
    ([p.1 ^^^ k0 ^^^ s1, p.2], [word P (k0 + P.constants.getD 1 0)])
  | ([s0, s1, s2, s3], [k0, k1]) =>
    let p0 := mulhilo P s2 (P.constants.getD 0 0)
    let p2 := mulhilo P s0 (P.constants.getD 2 0)
    ([p0.1 ^^^ k0 ^^^ s1, p0.2, p2.1 ^^^ k1 ^^^ s3, p2.2],
      [word P (k0 + P.constants.getD 1 0), word P (k1 + P.constants.getD 3 0)])
  | state => state

/-- `__philox`, which fills the buffer. -/
def philox (x k : List ℕ) : List ℕ := ((philoxRound P)^[P.roundCount] (x, k)).1

/-- An engine with a key, whose counter is zero. -/
def withKey (k : List ℕ) : PhiloxEngine where
  x := List.replicate P.wordCount 0
  k := k
  y := List.replicate P.wordCount 0
  j := P.wordCount - 1

def seed (s : ℕ) : PhiloxEngine := withKey P (word P s :: List.replicate (P.wordCount / 2 - 1) 0)

/-- A word of the key from the numbers of a seed sequence. -/
def seedWord (a : List ℕ) (i : ℕ) : ℕ :=
  let p := (P.wordSize - 1) / 32 + 1
  word P ((List.range p).foldl (fun sum l => (sum + a.getD (i * p + l) 0 <<< (32 * l)) % 2 ^ P.digits) 0)

/-- `seed` from a seed sequence that has generated these numbers. -/
def seedSequence (a : List ℕ) : PhiloxEngine :=
  withKey P ((List.range (P.wordCount / 2)).map (seedWord P a))

def setCounter (counter : List ℕ) (s : PhiloxEngine) : PhiloxEngine :=
  { s with
    x := (List.range P.wordCount).map fun j => word P (counter.getD (P.wordCount - 1 - j) 0)
    j := P.wordCount - 1 }

/-- `operator()`, which returns the word of the buffer that it moves to. -/
def next (s : PhiloxEngine) : PhiloxEngine :=
  if s.j + 1 = P.wordCount then
    { s with y := philox P s.x s.k, x := incrementCounter P.wordSize s.x, j := 0 }
  else { s with j := s.j + 1 }

/-- What `operator()` returns. -/
def output (s : PhiloxEngine) : ℕ := (next P s).y.getD (next P s).j 0

def discard (z : ℕ) (s : PhiloxEngine) : PhiloxEngine :=
  let advance := min z (P.wordCount - 1 - s.j)
  let j := s.j + advance
  let z := z - advance
  let x := addIncrement P.wordSize s.x (z / P.wordCount) 0
  if 0 < z % P.wordCount then
    { s with y := philox P x s.k, x := incrementCounter P.wordSize x, j := z % P.wordCount - 1 }
  else { s with x := x, j := j }

/-- `operator==`. -/
def equal (s t : PhiloxEngine) : Bool :=
  if s.x ≠ t.x then false
  else if s.j ≠ P.wordCount - 1 ∧ s.y ≠ t.y then false
  else if s.k ≠ t.k then false
  else s.j == t.j

/-- The states that an engine can get into. -/
inductive Reachable : PhiloxEngine → Prop
  | seed (s : ℕ) : Reachable (seed P s)
  | seedSequence (a : List ℕ) : Reachable (seedSequence P a)
  | setCounter {s : PhiloxEngine} (counter : List ℕ) : Reachable s → Reachable (setCounter P counter s)
  | next {s : PhiloxEngine} : Reachable s → Reachable (next P s)
  | discard {s : PhiloxEngine} (z : ℕ) : z < 2 ^ 64 → Reachable s → Reachable (discard P z s)

/-- The outputs of so many calls. -/
def outputs : ℕ → PhiloxEngine → List ℕ
  | 0, _ => []
  | n + 1, s => output P s :: outputs n (next P s)

/-- The words of a number, the highest first, as `set_counter` takes them. -/
def counterOf (v : ℕ) : List ℕ :=
  (List.range P.wordCount).map fun i => v / 2 ^ (P.wordSize * (P.wordCount - 1 - i)) % 2 ^ P.wordSize

/-- **`discard` is repeated stepping**, from a state. -/
def DiscardSteps (z : ℕ) (s : PhiloxEngine) : Prop :=
  equal P (discard P z s) ((next P)^[z] s) = true

/-- No carry is lost when `discard` adds to the counter. -/
def NoCarryLost (z : ℕ) (s : PhiloxEngine) : Prop :=
  CarriesKept P.wordSize P.wordCount (counterValue P.wordSize s.x)
    ((z - min z (P.wordCount - 1 - s.j)) / P.wordCount) 0

/-! ## 2. States -/

/-- A counter of as many words as there are, and a place in the buffer. -/
structure WellFormed (s : PhiloxEngine) : Prop where
  length_x : s.x.length = P.wordCount
  x_lt : ∀ v ∈ s.x, v < 2 ^ P.wordSize
  j_lt : s.j < P.wordCount

variable {P} {s t : PhiloxEngine}

theorem two_le_wordCount (P : PhiloxParameters) : 2 ≤ P.wordCount := by
  rcases P.wordCount_eq with h | h <;> omega

theorem wellFormed_withKey (k : List ℕ) : WellFormed P (withKey P k) where
  length_x := List.length_replicate
  x_lt v hv := by
    rw [(List.mem_replicate.mp hv).2]
    exact Nat.two_pow_pos _
  j_lt := Nat.sub_one_lt_of_lt (two_le_wordCount P)

theorem WellFormed.setCounter (counter : List ℕ) (s : PhiloxEngine) : WellFormed P (setCounter P counter s) where
  length_x := by rw [PhiloxEngine.setCounter, List.length_map, List.length_range]
  x_lt v hv := by
    obtain ⟨j, -, rfl⟩ := List.mem_map.mp hv
    exact Nat.mod_lt _ (Nat.two_pow_pos _)
  j_lt := Nat.sub_one_lt_of_lt (two_le_wordCount P)

theorem WellFormed.next (h : WellFormed P s) : WellFormed P (next P s) := by
  have hpos := two_le_wordCount P
  unfold PhiloxEngine.next
  split
  · exact ⟨(length_incrementCounter _).trans h.length_x, incrementCounter_lt h.x_lt, by dsimp only; omega⟩
  · have hj := h.j_lt
    exact ⟨h.length_x, h.x_lt, by dsimp only; omega⟩

theorem WellFormed.iterate_next (h : WellFormed P s) : ∀ n, WellFormed P ((PhiloxEngine.next P)^[n] s)
  | 0 => h
  | n + 1 => by
    rw [Function.iterate_succ_apply']
    exact (WellFormed.iterate_next h n).next

theorem WellFormed.discard (h : WellFormed P s) (z : ℕ) : WellFormed P (discard P z s) := by
  have hpos := two_le_wordCount P
  have hj := h.j_lt
  have hlength := (length_addIncrement (w := P.wordSize) s.x
    ((z - min z (P.wordCount - 1 - s.j)) / P.wordCount) 0).trans h.length_x
  have hlt : ∀ v ∈ addIncrement P.wordSize s.x ((z - min z (P.wordCount - 1 - s.j)) / P.wordCount) 0,
      v < 2 ^ P.wordSize := addIncrement_lt h.x_lt
  have hrest := Nat.mod_lt (z - min z (P.wordCount - 1 - s.j)) (by omega : 0 < P.wordCount)
  simp only [PhiloxEngine.discard]
  split
  · exact ⟨(length_incrementCounter _).trans hlength, incrementCounter_lt hlt, by dsimp only; omega⟩
  · exact ⟨hlength, hlt, by dsimp only; omega⟩

theorem Reachable.wellFormed (h : Reachable P s) : WellFormed P s := by
  induction h with
  | seed s => exact wellFormed_withKey _
  | seedSequence a => exact wellFormed_withKey _
  | setCounter counter _ _ => exact .setCounter counter _
  | next _ ih => exact ih.next
  | discard z _ _ ih => exact ih.discard z

/-! ## 3. Equal engines -/

theorem equal_iff : equal P s t = true ↔
    s.x = t.x ∧ (s.j ≠ P.wordCount - 1 → s.y = t.y) ∧ s.k = t.k ∧ s.j = t.j := by
  unfold equal
  by_cases hx : s.x = t.x
  swap
  · rw [if_pos hx]
    exact ⟨nofun, fun h => absurd h.1 hx⟩
  rw [if_neg (not_not_intro hx)]
  by_cases hy : s.j ≠ P.wordCount - 1 ∧ s.y ≠ t.y
  · rw [if_pos hy]
    exact ⟨nofun, fun h => absurd (h.2.1 hy.1) hy.2⟩
  rw [if_neg hy]
  by_cases hk : s.k = t.k
  swap
  · rw [if_pos hk]
    exact ⟨nofun, fun h => absurd h.2.2.1 hk⟩
  rw [if_neg (not_not_intro hk), beq_iff_eq]
  exact ⟨fun hj => ⟨hx, fun hne => of_not_not fun h => hy ⟨hne, h⟩, hk, hj⟩, fun h => h.2.2.2⟩

/-- **Equal engines stay equal.** -/
theorem equal_next (h : equal P s t = true) : equal P (next P s) (next P t) = true := by
  obtain ⟨hx, hy, hk, hj⟩ := equal_iff.mp h
  have hpos := two_le_wordCount P
  rw [equal_iff]
  unfold next
  rw [← hj, ← hx, ← hk]
  split
  · exact ⟨rfl, fun _ => rfl, rfl, rfl⟩
  · exact ⟨rfl, fun _ => hy (by omega), rfl, rfl⟩

theorem equal_refl (s : PhiloxEngine) : equal P s s = true :=
  equal_iff.mpr ⟨rfl, fun _ => rfl, rfl, rfl⟩

theorem equal_iterate (h : equal P s t = true) : ∀ n, equal P ((next P)^[n] s) ((next P)^[n] t) = true
  | 0 => h
  | n + 1 => by
    rw [Function.iterate_succ_apply', Function.iterate_succ_apply']
    exact equal_next (equal_iterate h n)

theorem output_eq (h : equal P s t = true) : output P s = output P t := by
  obtain ⟨hx, hy, hk, hj⟩ := equal_iff.mp h
  unfold output next
  rw [← hj]
  split
  · rw [hx, hk]
  · rename_i hlast
    rw [hy fun hsame => hlast (by have := two_le_wordCount P; omega)]

/-- **Equal engines return the same for ever.** -/
theorem outputs_eq : ∀ (n : ℕ) {s t : PhiloxEngine}, equal P s t = true → outputs P n s = outputs P n t
  | 0, _, _, _ => rfl
  | n + 1, s, t, h => by rw [outputs, outputs, output_eq h, outputs_eq n (equal_next h)]

theorem equal_symm (h : equal P s t = true) : equal P t s = true := by
  obtain ⟨hx, hy, hk, hj⟩ := equal_iff.mp h
  exact equal_iff.mpr ⟨hx.symm, fun hne => (hy (hj ▸ hne)).symm, hk.symm, hj.symm⟩

theorem equal_trans {u : PhiloxEngine} (h : equal P s t = true) (h' : equal P t u = true) :
    equal P s u = true := by
  obtain ⟨hx, hy, hk, hj⟩ := equal_iff.mp h
  obtain ⟨hx', hy', hk', hj'⟩ := equal_iff.mp h'
  exact equal_iff.mpr ⟨hx.trans hx', fun hne => (hy hne).trans (hy' (hj ▸ hne)), hk.trans hk', hj.trans hj'⟩

/-! ## 4. Steps -/

theorem iterate_in_block : ∀ {n : ℕ} {s : PhiloxEngine}, s.j + n < P.wordCount →
    (next P)^[n] s = { s with j := s.j + n }
  | 0, _, _ => rfl
  | n + 1, s, h => by
    have hstep : next P s = { s with j := s.j + 1 } := if_neg (by omega)
    have hrest := iterate_in_block (n := n) (s := { s with j := s.j + 1 }) (by dsimp only; omega)
    rw [Function.iterate_succ_apply, hstep, hrest]
    dsimp only
    rw [Nat.add_assoc, Nat.add_comm 1]

theorem iterate_block (hj : s.j + 1 = P.wordCount) {r : ℕ} (hr : 0 < r) (hr' : r ≤ P.wordCount) :
    (next P)^[r] s = { s with
      y := philox P s.x s.k, x := incrementCounter P.wordSize s.x, j := r - 1 } := by
  obtain ⟨n, rfl⟩ := Nat.exists_eq_succ_of_ne_zero hr.ne'
  have hstep : next P s = { s with
      y := philox P s.x s.k, x := incrementCounter P.wordSize s.x, j := 0 } := if_pos hj
  rw [Nat.succ_eq_add_one, Function.iterate_succ_apply, hstep, iterate_in_block (by dsimp only; omega)]
  dsimp only
  rw [Nat.zero_add, Nat.add_sub_cancel]

/-- **Whole blocks** only add to the counter. -/
theorem iterate_blocks (hj : s.j + 1 = P.wordCount) : ∀ q : ℕ, equal P ((next P)^[P.wordCount * q] s)
    { s with x := (incrementCounter P.wordSize)^[q] s.x } = true
  | 0 => equal_refl s
  | q + 1 => by
    have hpos := two_le_wordCount P
    have hprevious := equal_iterate (iterate_blocks hj q) P.wordCount
    have hblock := iterate_block (P := P) (s := { s with x := (incrementCounter P.wordSize)^[q] s.x }) hj
      (by omega : 0 < P.wordCount) (le_refl _)
    rw [hblock] at hprevious
    rw [Nat.mul_succ, Nat.add_comm, Function.iterate_add_apply]
    refine equal_trans hprevious (equal_iff.mpr ⟨?_, fun hne => absurd rfl hne, rfl, ?_⟩)
    · exact (Function.iterate_succ_apply' _ _ _).symm
    · dsimp only
      omega

/-! ## 5. The counter -/

theorem counterValue_iterate (h : ∀ v ∈ s.x, v < 2 ^ P.wordSize) : ∀ q : ℕ,
    counterValue P.wordSize ((incrementCounter P.wordSize)^[q] s.x) =
        (counterValue P.wordSize s.x + q) % 2 ^ (P.wordSize * s.x.length) ∧
      ((incrementCounter P.wordSize)^[q] s.x).length = s.x.length ∧
        ∀ v ∈ (incrementCounter P.wordSize)^[q] s.x, v < 2 ^ P.wordSize
  | 0 => ⟨(Nat.mod_eq_of_lt (counterValue_lt P.wordSize_pos h)).symm, rfl, h⟩
  | q + 1 => by
    obtain ⟨hvalue, hlength, hlt⟩ := counterValue_iterate h q
    rw [Function.iterate_succ_apply', counterValue_incrementCounter P.wordSize_pos hlt, hvalue, hlength,
      Nat.mod_add_mod, Nat.add_assoc]
    exact ⟨rfl, (length_incrementCounter _).trans hlength, incrementCounter_lt hlt⟩

/-- **The loop of `discard` is so many increments** if and only if no carry is lost. -/
theorem addIncrement_eq_iff (h : WellFormed P s) {increment : ℕ} (hincrement : increment < 2 ^ 64) :
    addIncrement P.wordSize s.x increment 0 = (incrementCounter P.wordSize)^[increment] s.x ↔
      CarriesKept P.wordSize P.wordCount (counterValue P.wordSize s.x) increment 0 := by
  obtain ⟨hvalue, hlength, hlt⟩ := counterValue_iterate h.x_lt increment
  rw [← h.length_x, ← value_addIncrement_iff P.wordSize_pos h.x_lt hincrement (Nat.zero_le 1), Nat.add_zero,
    ← hvalue]
  constructor
  · exact fun heq => congrArg _ heq
  · exact eq_of_counterValue P.wordSize_pos ((length_addIncrement _ _ _).trans hlength.symm)
      (addIncrement_lt h.x_lt) hlt

theorem incrementCounter_injective {xs ys : List ℕ} (hlength : xs.length = ys.length)
    (hx : ∀ v ∈ xs, v < 2 ^ P.wordSize) (hy : ∀ v ∈ ys, v < 2 ^ P.wordSize)
    (h : incrementCounter P.wordSize xs = incrementCounter P.wordSize ys) : xs = ys := by
  refine eq_of_counterValue P.wordSize_pos hlength hx hy ?_
  have hvalue := congrArg (counterValue P.wordSize) h
  rw [counterValue_incrementCounter P.wordSize_pos hx, counterValue_incrementCounter P.wordSize_pos hy,
    hlength] at hvalue
  have hmod : counterValue P.wordSize xs ≡ counterValue P.wordSize ys [MOD 2 ^ (P.wordSize * ys.length)] :=
    Nat.ModEq.add_right_cancel' 1 hvalue
  exact hmod.eq_of_lt_of_lt (hlength ▸ counterValue_lt P.wordSize_pos hx) (counterValue_lt P.wordSize_pos hy)

/-! ## 6. `discard` -/

/-- From the end of a block, `discard` adds blocks and begins another one. -/
theorem discard_of_blocks (h : WellFormed P s) (hj : s.j + 1 = P.wordCount) {q r : ℕ} (hr : r < P.wordCount)
    {A : List ℕ} (hlength : A.length = P.wordCount) (hA : ∀ v ∈ A, v < 2 ^ P.wordSize) :
    equal P (if 0 < r then { s with y := philox P A s.k, x := incrementCounter P.wordSize A, j := r - 1 }
        else { s with x := A }) ((next P)^[P.wordCount * q + r] s) = true ↔
      A = (incrementCounter P.wordSize)^[q] s.x := by
  have hblocks := equal_iterate (iterate_blocks (P := P) hj q) r
  rw [← Function.iterate_add_apply, Nat.add_comm r] at hblocks
  obtain ⟨-, hlength', hlt⟩ := counterValue_iterate h.x_lt q
  split
  · rename_i hpos
    have hrest := iterate_block (P := P) (s := { s with x := (incrementCounter P.wordSize)^[q] s.x }) hj hpos hr.le
    rw [hrest] at hblocks
    constructor
    · intro heq
      obtain ⟨hx, -⟩ := equal_iff.mp (equal_trans heq hblocks)
      exact incrementCounter_injective (hlength.trans (h.length_x.symm.trans hlength'.symm)) hA hlt hx
    · rintro rfl
      exact equal_symm hblocks
  · rename_i hzero
    obtain rfl : r = 0 := by omega
    constructor
    · intro heq
      exact (equal_iff.mp (equal_trans heq hblocks)).1
    · rintro rfl
      exact equal_symm hblocks

theorem discard_eq_steps_iff (h : WellFormed P s) {z : ℕ} (hz : z < 2 ^ 64) :
    DiscardSteps P z s ↔ NoCarryLost P z s := by
  have hpos := two_le_wordCount P
  have hj := h.j_lt
  have hq : (z - min z (P.wordCount - 1 - s.j)) / P.wordCount < 2 ^ 64 :=
    ((Nat.div_le_self _ _).trans (Nat.sub_le _ _)).trans_lt hz
  rw [DiscardSteps, NoCarryLost, ← addIncrement_eq_iff h hq]
  by_cases hin : z ≤ P.wordCount - 1 - s.j
  · have hmin : min z (P.wordCount - 1 - s.j) = z := Nat.min_eq_left hin
    have hkeep : addIncrement P.wordSize s.x 0 0 = s.x := by
      cases s.x with
      | nil => rfl
      | cons x xs => exact if_pos ⟨rfl, rfl⟩
    simp only [discard, hmin, Nat.sub_self, Nat.zero_div, Nat.zero_mod, hkeep]
    rw [if_neg (Nat.lt_irrefl 0), iterate_in_block (by omega)]
    exact iff_of_true (equal_refl _) rfl
  · have hmin : min z (P.wordCount - 1 - s.j) = P.wordCount - 1 - s.j := Nat.min_eq_right (by omega)
    obtain ⟨y, hy⟩ : ∃ y, z - (P.wordCount - 1 - s.j) = y := ⟨_, rfl⟩
    have hsplit : z = P.wordCount * (y / P.wordCount) + y % P.wordCount + (P.wordCount - 1 - s.j) := by
      rw [Nat.div_add_mod]
      omega
    have hlast : s.j + (P.wordCount - 1 - s.j) = P.wordCount - 1 := by omega
    have hend : (next P)^[P.wordCount - 1 - s.j] s = { s with j := P.wordCount - 1 } := by
      rw [iterate_in_block (by omega), hlast]
    have hblocks := discard_of_blocks (P := P) (s := { s with j := P.wordCount - 1 }) (q := y / P.wordCount)
      (r := y % P.wordCount) (A := addIncrement P.wordSize s.x (y / P.wordCount) 0)
      ⟨h.length_x, h.x_lt, by dsimp only; omega⟩ (by dsimp only; omega) (Nat.mod_lt _ (by omega))
      ((length_addIncrement _ _ _).trans h.length_x) (addIncrement_lt h.x_lt)
    rw [hmin, hy, ← hblocks]
    simp only [discard, hmin, hy, hlast]
    conv_lhs => rw [hsplit, Function.iterate_add_apply, hend]

/-! ## 7. `set_counter` -/

/-- **Blocks that are discarded from a new engine** are a counter that is set. -/
theorem discard_withKey (P : PhiloxParameters) (key : List ℕ) {k : ℕ} (hk : P.wordCount * k < 2 ^ 64) :
    equal P (discard P (P.wordCount * k) (withKey P key)) (setCounter P (counterOf P k) (withKey P key)) = true := by
  have hpos := two_le_wordCount P
  have hk64 : k < 2 ^ 64 := (Nat.le_mul_of_pos_left k (by omega)).trans_lt hk
  have hdiscard : discard P (P.wordCount * k) (withKey P key) = { withKey P key with
      x := addIncrement P.wordSize (List.replicate P.wordCount 0) k 0 } := by
    simp only [discard, withKey, Nat.sub_self, Nat.min_zero, Nat.sub_zero, Nat.add_zero, Nat.mul_mod_right,
      Nat.lt_irrefl, if_false, Nat.mul_div_cancel_left k (by omega : 0 < P.wordCount)]
  rw [hdiscard, addIncrement_zero _ hk64]
  refine equal_iff.mpr ⟨List.map_congr_left fun i hi => ?_, fun hne => absurd rfl hne, rfl, rfl⟩
  have hi' := List.mem_range.mp hi
  have hplace : P.wordCount - 1 - (P.wordCount - 1 - i) = i := by omega
  rw [counterOf, List.getD_eq_getElem?_getD, List.getElem?_map, List.getElem?_range (by omega), Option.map_some,
    Option.getD_some, hplace, word, Nat.mod_mod]

/-! ## 8. The two together -/

/-- With two words, no carry can be lost: the carry out of the second one does not matter. -/
theorem noCarryLost_of_two (h : P.wordCount = 2) (z : ℕ) (s : PhiloxEngine) : NoCarryLost P z s := by
  intro i hi hlost
  obtain rfl : i = 0 := by omega
  rw [Nat.mul_zero, Nat.pow_zero, Nat.mod_one, Nat.mod_one] at hlost
  exact absurd hlost.2 (by decide)

/-- **`discard` is repeated stepping** if and only if no carry is lost, from each state that the engine can get
into; and blocks that are discarded from a new engine are a counter that is set. -/
theorem discard_correct (P : PhiloxParameters) :
    (∀ s, Reachable P s → ∀ z < 2 ^ 64, (DiscardSteps P z s ↔ NoCarryLost P z s)) ∧
      ∀ key k, P.wordCount * k < 2 ^ 64 →
        equal P (discard P (P.wordCount * k) (withKey P key))
          (setCounter P (counterOf P k) (withKey P key)) = true :=
  ⟨fun _ hs _ hz => discard_eq_steps_iff hs.wellFormed hz, fun key _ hk => discard_withKey P key hk⟩

def philox4x32 : PhiloxParameters where
  digits := 32
  wordSize := 32
  wordCount := 4
  roundCount := 10
  constants := [0xCD9E8D57, 0x9E3779B9, 0xD2511F53, 0xBB67AE85]
  hasInt128 := true
  supported := by decide
  wordCount_eq := by decide
  length_constants := rfl
  roundCount_pos := by decide
  wordSize_pos := Nat.succ_pos _
  wordSize_le := Nat.le_add_right 32 0

theorem discard_correct_philox4x32 :
    (DiscardSteps philox4x32 17179869180 (setCounter philox4x32 [0, 0, 0, 1] (seed philox4x32 20111115)) ↔
      NoCarryLost philox4x32 17179869180 (setCounter philox4x32 [0, 0, 0, 1] (seed philox4x32 20111115))) ∧
    equal philox4x32 (discard philox4x32 (4 * 100) (seed philox4x32 20111115))
      (setCounter philox4x32 (counterOf philox4x32 100) (seed philox4x32 20111115)) = true :=
  ⟨(discard_correct philox4x32).1 _ (.setCounter _ (.seed _)) _ (by decide),
    (discard_correct philox4x32).2 _ 100 (by decide)⟩

/-- A buffer that is used up does not matter. -/
theorem outputs_eq_philox4x32 : outputs philox4x32 5 (seed philox4x32 1) =
    outputs philox4x32 5 { seed philox4x32 1 with y := [1, 2, 3, 4] } :=
  outputs_eq 5 (by decide)

/-- Four words of 16 bits each. -/
def philox4x16 : PhiloxParameters where
  digits := 32
  wordSize := 16
  wordCount := 4
  roundCount := 10
  constants := [0x8D57, 0x79B9, 0x1F53, 0xAE85]
  hasInt128 := true
  supported := by decide
  wordCount_eq := by decide
  length_constants := rfl
  roundCount_pos := by decide
  wordSize_pos := Nat.succ_pos _
  wordSize_le := by decide

/-- From the counter 1, an increment of two words whose bits are all set loses the carry. -/
theorem not_discardSteps_philox4x16 :
    ¬ ∀ (P : PhiloxParameters) (s : PhiloxEngine), Reachable P s → ∀ z < 2 ^ 64, DiscardSteps P z s := by
  intro h
  have hreachable : Reachable philox4x16 (setCounter philox4x16 [0, 0, 0, 1] (seed philox4x16 20111115)) :=
    .setCounter _ (.seed _)
  have hkept := (discard_eq_steps_iff hreachable.wellFormed (by decide)).mp (h _ _ hreachable 17179869180 (by decide))
  exact hkept 1 (by decide) (by decide)

end PhiloxEngine

end Cccl.Random
