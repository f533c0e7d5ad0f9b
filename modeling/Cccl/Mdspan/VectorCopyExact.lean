/-
# When a vectorised copy is the element-wise one

The width of a copy is a power of two: the alignment of a pointer is one (`ptrAlignment_eq`), and a greatest
common divisor with a power of two is one again (`strideAlignment_spec`).  So a larger power of two divides
the width if it divides everything that went into it (`maxAlignment_spec`, `vectorSizeBytes_spec`).

If the width divides what it should, the vectors of a row are the bytes of its elements, and the other
strides lead to the same places (`transferredBytes_reshape`).  Three things may go wrong.  An element may be
larger than the widest vector, and no branch is taken.  A pointer may not be a multiple of the element size.
And where vectors have more than one element, a stride of one outside of the innermost mode is not divided
by their number; nor may a sum of strides leave the stride type, since it may come back into it after the
division (`exists_leaves`).  Otherwise the copies are the same (`copiesVectors_iff`).
-/
import Cccl.Mdspan.VectorCopy
import Cccl.Cmath.Ilog
import Mathlib.Algebra.Order.Ring.Abs
import Mathlib.Tactic.Linarith
import Mathlib.Tactic.Ring
import Mathlib.Data.Nat.Factorization.Basic
import Mathlib.Tactic.IntervalCases

namespace Cccl.Mdspan

open IntegerTypes Strided MixedRadix Modes

/-! ## 1. The alignment of a pointer -/

/-- **The lowest bit of an address.** -/
theorem ptrAlignment_eq {a q : ℕ} (hlt : 2 ^ a * (2 * q + 1) < 2 ^ 64) :
    ptrAlignment (2 ^ a * (2 * q + 1)) = 2 ^ a := by
  have hpow := Nat.two_pow_pos a
  have hpos : 0 < 2 ^ a * (2 * q + 1) := Nat.mul_pos hpow (Nat.succ_pos _)
  have ha : a < 64 := by
    rw [← Nat.pow_lt_pow_iff_right (by decide : 1 < 2)]
    exact (Nat.le_mul_of_pos_right _ (Nat.succ_pos _)).trans_lt hlt
  have hpred : 2 ^ a * (2 * q + 1) - 1 = 2 ^ a * (2 * q) + (2 ^ a - 1) := by
    rw [Nat.mul_succ]
    omega
  have hneg : (2 ^ 64 - 1 - 2 ^ a * (2 * q + 1) + 1) % 2 ^ 64 =
      2 ^ 64 - (2 ^ a * (2 * q + 1) - 1 + 1) := by omega
  rw [ptrAlignment, hneg]
  refine Nat.eq_of_testBit_eq fun i => ?_
  rw [Nat.testBit_and, Nat.testBit_two_pow_sub_succ (by omega), hpred,
    Nat.testBit_two_pow_mul_add _ (Nat.sub_one_lt hpow.ne'),
    ← Nat.add_zero (2 ^ a * (2 * q + 1)), Nat.testBit_two_pow_mul_add _ hpow, Nat.testBit_two_pow]
  rcases Nat.lt_trichotomy i a with hlow | rfl | hhigh
  · rw [if_pos hlow, Nat.zero_testBit, Bool.false_and, decide_eq_false (by omega)]
  · rw [if_neg (by omega), if_neg (by omega), Nat.sub_self, Nat.testBit_zero, Nat.testBit_zero,
      decide_eq_true ha, decide_eq_true rfl, decide_eq_true (by omega),
      decide_eq_false (by omega)]
    rfl
  · -- above the lowest bit the predecessor has the same bits
    have hsame : (2 * q + 1).testBit (i - a) = (2 * q).testBit (i - a) := by
      obtain ⟨j, hj⟩ : ∃ j, i - a = j + 1 := ⟨i - a - 1, by omega⟩
      rw [hj, Nat.testBit_succ, Nat.testBit_succ, Nat.mul_add_div (by decide)]
      congr 1
      omega
    rw [if_neg (by omega), if_neg (by omega), hsame, decide_eq_false (by omega : ¬ a = i)]
    cases (2 * q).testBit (i - a) <;> simp

/-- A power of two divides the alignment if it divides the address. -/
theorem ptrAlignment_spec {addr : ℕ} (hpos : 0 < addr) (hlt : addr < 2 ^ 64) :
    ∃ a < 64, ptrAlignment addr = 2 ^ a ∧ ∀ k, 2 ^ k ∣ ptrAlignment addr ↔ 2 ^ k ∣ addr := by
  obtain ⟨a, odd, ⟨q, rfl⟩, rfl⟩ := Nat.exists_eq_two_pow_mul_odd hpos.ne'
  have ha : a < 64 := by
    rw [← Nat.pow_lt_pow_iff_right (by decide : 1 < 2)]
    exact (Nat.le_mul_of_pos_right _ (Nat.succ_pos _)).trans_lt hlt
  refine ⟨a, ha, ptrAlignment_eq hlt, fun k => ?_⟩
  rw [ptrAlignment_eq hlt]
  have hcoprime : Nat.Coprime (2 ^ k) (2 * q + 1) :=
    Nat.Coprime.pow_left k (Nat.coprime_two_left.mpr ⟨q, rfl⟩)
  exact ⟨fun h => h.mul_right _, fun h => hcoprime.dvd_of_dvd_mul_right h⟩

/-! ## 2. The width -/

theorem strideAlignment_spec {size : ℕ} : ∀ {strides : List ℤ} {alignment : ℕ},
    (∃ a < 64, alignment = 2 ^ a) →
    (∃ b < 64, strideAlignment size alignment strides = 2 ^ b) ∧
      ∀ k, 2 ^ k ∣ strideAlignment size alignment strides ↔
        2 ^ k ∣ alignment ∧ ∀ s ∈ strides, s.natAbs ≠ 1 → 2 ^ k ∣ s.natAbs * size
  | [], alignment, h => ⟨h, fun k => by simp [strideAlignment]⟩
  | s :: strides, alignment, ⟨a, ha, heq⟩ => by
    rw [strideAlignment, List.foldl_cons, ← strideAlignment]
    by_cases hs : s.natAbs ≠ 1
    · rw [if_pos hs]
      have hpow : ∃ b < 64, Nat.gcd alignment (s.natAbs * size % 2 ^ 64) = 2 ^ b := by
        have hdvd : Nat.gcd alignment (s.natAbs * size % 2 ^ 64) ∣ 2 ^ a := heq ▸ Nat.gcd_dvd_left _ _
        obtain ⟨b, hb, hgcd⟩ := (Nat.dvd_prime_pow Nat.prime_two).mp hdvd
        exact ⟨b, by omega, hgcd⟩
      obtain ⟨hresult, hdvd⟩ := @strideAlignment_spec size strides _ hpow
      refine ⟨hresult, fun k => ?_⟩
      rw [hdvd, Nat.dvd_gcd_iff, List.forall_mem_cons, and_assoc]
      refine and_congr_right fun hk => and_congr_left fun _ => ?_
      -- the product is taken modulo a multiple of the power
      have hword : 2 ^ k ∣ 2 ^ 64 := by
        rw [heq] at hk
        exact hk.trans (Nat.pow_dvd_pow 2 ha.le)
      rw [Nat.dvd_mod_iff hword]
      exact ⟨fun h _ => h, fun h => h hs⟩
    · rw [if_neg hs]
      obtain ⟨hresult, hdvd⟩ := @strideAlignment_spec size strides _ ⟨a, ha, heq⟩
      refine ⟨hresult, fun k => ?_⟩
      rw [hdvd, List.forall_mem_cons]
      exact and_congr_right fun _ => ⟨fun h => ⟨fun hne => absurd hne hs, h⟩, fun h => h.2⟩

/-- What a power of two of bytes must divide. -/
structure Divides (bytes size : ℕ) (t : RawTensor) : Prop where
  data : (bytes : ℤ) ∣ t.data
  extent : bytes ∣ (t.extents.headD 0).toNat * size
  strides : ∀ s ∈ t.activeStrides, s.natAbs ≠ 1 → bytes ∣ s.natAbs * size

/-- **The alignment of a tensor** whose pointer is a multiple of the element size. -/
theorem maxAlignment_spec {j : ℕ} {t : RawTensor} (hcontiguous : t.strides.headD 0 = 1)
    (hpos : 0 < t.data) (hlt : t.data < 2 ^ 64) (haligned : ((2 ^ j : ℕ) : ℤ) ∣ t.data) :
    ∃ b, maxAlignment (2 ^ j) t = 2 ^ b ∧ j ≤ b ∧ ∀ k, j ≤ k →
      (k ≤ b ↔ Divides (2 ^ k) (2 ^ j) t) := by
  obtain ⟨data, hdata⟩ := Int.eq_ofNat_of_zero_le hpos.le
  have hdata' : t.data.toNat = data := by rw [hdata, Int.toNat_natCast]
  obtain ⟨a, ha, hptr, hptrdvd⟩ := @ptrAlignment_spec data (by omega) (by omega)
  obtain ⟨⟨c, hc, hstride⟩, hdvd⟩ := @strideAlignment_spec (2 ^ j) t.activeStrides _
    ⟨a, ha, hptr⟩
  have hjc : j ≤ c := by
    rw [← Nat.pow_dvd_pow_iff_le_right (by decide : 1 < 2), ← hstride, hdvd, hptrdvd]
    exact ⟨by rw [hdata] at haligned; exact_mod_cast haligned, fun s _ _ => Nat.dvd_mul_left _ _⟩
  obtain ⟨d, hd, hgcd⟩ : ∃ d ≤ c - j, Nat.gcd (2 ^ (c - j)) (t.extents.headD 0).toNat = 2 ^ d :=
    (Nat.dvd_prime_pow Nat.prime_two).mp (Nat.gcd_dvd_left _ _)
  have hvalue : maxAlignment (2 ^ j) t = 2 ^ (d + j) := by
    rw [maxAlignment, if_neg (not_not.mpr hcontiguous), hdata']
    change Nat.gcd (strideAlignment _ _ t.activeStrides / 2 ^ j) _ * 2 ^ j % 2 ^ 64 = _
    rw [hstride, Nat.pow_div hjc (by decide), hgcd, ← Nat.pow_add]
    exact Nat.mod_eq_of_lt (Nat.pow_lt_pow_right (by decide) (by omega))
  refine ⟨d + j, hvalue, Nat.le_add_left _ _, fun k hk => ?_⟩
  have hsplit : 2 ^ k = 2 ^ (k - j) * 2 ^ j := by rw [← Nat.pow_add, Nat.sub_add_cancel hk]
  have hstrides : k ≤ c ↔ 2 ^ k ∣ data ∧ ∀ s ∈ t.activeStrides, s.natAbs ≠ 1 →
      2 ^ k ∣ s.natAbs * 2 ^ j := by
    rw [← hptrdvd, ← hdvd, hstride, Nat.pow_dvd_pow_iff_le_right (by decide : 1 < 2)]
  have hinner : 2 ^ k ∣ (t.extents.headD 0).toNat * 2 ^ j ↔ 2 ^ (k - j) ∣ (t.extents.headD 0).toNat := by
    rw [hsplit]
    exact Nat.mul_dvd_mul_iff_right (Nat.two_pow_pos j)
  have hmin : k - j ≤ d ↔ k - j ≤ c - j ∧ 2 ^ (k - j) ∣ (t.extents.headD 0).toNat := by
    rw [← Nat.pow_dvd_pow_iff_le_right (by decide : 1 < 2), ← hgcd, Nat.dvd_gcd_iff,
      Nat.pow_dvd_pow_iff_le_right (by decide : 1 < 2)]
  constructor
  · intro hle
    obtain ⟨hle', hextent'⟩ := hmin.mp (by omega)
    obtain ⟨hdata'', hstrides'⟩ := hstrides.mp (by omega)
    exact ⟨by rw [hdata]; exact_mod_cast hdata'', hinner.mpr hextent', hstrides'⟩
  · intro h
    have hdata'' : 2 ^ k ∣ data := by
      have h' := h.data
      rw [hdata] at h'
      exact_mod_cast h'
    have hle := hstrides.mpr ⟨hdata'', h.strides⟩
    have := hmin.mpr ⟨by omega, hinner.mp h.extent⟩
    omega

variable {m : DataModel} {types : CopyTypes} {platform : VectorPlatform} {p : RawPair} {size : ℕ}

theorem exists_maxGpuArchVectorSize : ∃ g ≤ 5, maxGpuArchVectorSize platform = 2 ^ g ∧
    (g = 5 → platform.ctkAtLeast13 = true) := by
  rw [maxGpuArchVectorSize]
  cases platform.ctkAtLeast13 with
  | false => exact ⟨4, by decide, rfl, by decide⟩
  | true =>
    by_cases hmajor : 10 ≤ platform.computeCapabilityMajor
    · exact ⟨5, by decide, (if_pos rfl).trans (if_pos hmajor), fun _ => rfl⟩
    · exact ⟨4, by decide, (if_pos rfl).trans (if_neg hmajor), by decide⟩

/-- **The width of a pair** whose pointers are multiples of the element size. -/
theorem vectorSizeBytes_spec (platform : VectorPlatform) (hp : ContiguousPair m types p) {j : ℕ}
    (hsrc : ((2 ^ j : ℕ) : ℤ) ∣ p.1.data) (hdst : ((2 ^ j : ℕ) : ℤ) ∣ p.2.data) :
    ∃ w ≤ 5, vectorSizeBytes platform (2 ^ j) p = 2 ^ w ∧ (w = 5 → platform.ctkAtLeast13 = true) ∧
      ∀ k, j ≤ k → (k ≤ w ↔ 2 ^ k ≤ maxGpuArchVectorSize platform ∧
        Divides (2 ^ k) (2 ^ j) p.1 ∧ Divides (2 ^ k) (2 ^ j) p.2) := by
  obtain ⟨b₁, hb₁, -, hdvd₁⟩ := maxAlignment_spec hp.src_contiguous hp.src_pointer.1 hp.src_pointer.2 hsrc
  obtain ⟨b₂, hb₂, -, hdvd₂⟩ := maxAlignment_spec hp.dst_contiguous hp.dst_pointer.1 hp.dst_pointer.2 hdst
  obtain ⟨g, hg, harch, hctk⟩ := @exists_maxGpuArchVectorSize platform
  have hmono : Monotone fun k : ℕ => 2 ^ k := fun _ _ h => Nat.pow_le_pow_right (by decide) h
  refine ⟨min b₁ (min b₂ g), by omega, ?_, fun h => hctk (by omega), fun k hk => ?_⟩
  · rw [vectorSizeBytes, hb₁, hb₂, harch]
    exact (hmono.map_min.trans (congrArg _ hmono.map_min)).symm
  · rw [harch, ← hdvd₁ k hk, ← hdvd₂ k hk, Nat.pow_le_pow_iff_right (by decide)]
    omega

/-- There is a branch for each width that has room for an element. -/
theorem dispatchedWidth_two_pow {j w : ℕ} (hjw : j ≤ w) (hw : w ≤ 5)
    (hctk : w = 5 → platform.ctkAtLeast13 = true) :
    dispatchedWidth platform (2 ^ j) (2 ^ w) = some (2 ^ w) := by
  interval_cases w
  all_goals interval_cases j
  all_goals simp [dispatchedWidth, hctk]

theorem dispatchedWidth_eq_some {vectorSize width : ℕ}
    (h : dispatchedWidth platform size vectorSize = some width) :
    size ≤ width ∧ (width = vectorSize ∨ width = 1) := by
  unfold dispatchedWidth at h
  split_ifs at h <;> obtain rfl := Option.some.inj h <;> omega

/-! ## 3. The bytes of a pair -/

theorem dot_take {M : Type} [AddCommMonoid M] : ∀ (c : List ℕ) (ss : List M),
    dot c (ss.take c.length) = dot c ss
  | [], ss => rfl
  | i :: is, [] => rfl
  | i :: is, s :: ss => by
    rw [List.length_cons, List.take_succ_cons, dot_cons, dot_cons, dot_take is ss]

theorem dot_zip {M N : Type} [AddCommMonoid M] [AddCommMonoid N] (c : List ℕ) {ss : List M}
    {ds : List N} (h : ss.length = ds.length) : dot c (ss.zip ds) = (dot c ss, dot c ds) := by
  have hfst := map_dot (AddMonoidHom.fst M N) c (ss.zip ds)
  have hsnd := map_dot (AddMonoidHom.snd M N) c (ss.zip ds)
  refine Prod.ext (hfst.trans ?_) (hsnd.trans ?_)
  · exact congrArg (dot c) (List.map_fst_zip h.le)
  · exact congrArg (dot c) (List.map_snd_zip h.ge)

theorem dot_map_nsmul {M : Type} [AddCommMonoid M] (n : ℕ) (c : List ℕ) (ss : List M) :
    dot c (ss.map (n • ·)) = n • dot c ss :=
  (map_dot (nsmulAddMonoidHom n) c ss).symm

/-- All offsets of a pair are values of the stride types. -/
def OffsetsFit (m : DataModel) (types : CopyTypes) (p : RawPair) : Prop :=
  ∀ c, Fits c p.1.activeExtents → types.srcStride.Has m (dot c p.1.activeStrides) ∧
    types.dstStride.Has m (dot c p.2.activeStrides)

/-- What is needed of the shape of a pair. -/
structure Shaped (p : RawPair) : Prop where
  src_length : p.1.activeStrides.length = p.1.activeExtents.length
  dst_length : p.2.activeStrides.length = p.1.activeExtents.length
  src_rank : p.1.activeExtents.length = p.1.rank
  dst_rank : p.1.activeExtents.length = p.2.rank

theorem Shaped.dot_strides (h : Shaped p) {c : List ℕ} (hc : Fits c p.1.activeExtents) :
    dot c p.1.strides = dot c p.1.activeStrides ∧ dot c p.2.strides = dot c p.2.activeStrides := by
  have hlength := hc.length_eq
  rw [← dot_take c p.1.strides, ← dot_take c p.2.strides, hlength]
  exact ⟨by rw [h.src_rank]; rfl, by rw [h.dst_rank]; rfl⟩

/-- **The bytes of a pair are places**, with the bytes of an element as the innermost mode. -/
theorem transferredBytes_eq (h : Shaped p) (hfit : OffsetsFit m types p) :
    transferredBytes m types size p =
      (places ((size, ((1 : ℤ), (1 : ℤ))) :: p.1.activeExtents.zip
        ((p.1.activeStrides.zip p.2.activeStrides).map (size • ·)))).map ((p.1.data, p.2.data) + ·) := by
  have hzip : p.1.activeStrides.length = p.2.activeStrides.length := h.src_length.trans h.dst_length.symm
  have hlength : p.1.activeExtents.length =
      ((p.1.activeStrides.zip p.2.activeStrides).map (size • ·)).length := by
    rw [List.length_map, List.length_zip, ← hzip, min_self, h.src_length]
  rw [transferredBytes, transfers, Multiset.bind_map, places, ← map_dot_coords hlength]
  simp only [Multiset.map_bind, Multiset.map_map]
  rw [Multiset.bind_map_comm]
  refine Multiset.bind_congr fun b _ => Multiset.map_congr rfl fun c hc => ?_
  obtain ⟨hsrc, hdst⟩ := hfit c (mem_coords.mp hc)
  obtain ⟨hsrc', hdst'⟩ := h.dot_strides (mem_coords.mp hc)
  simp only [Function.comp_apply, RawTensor.address, RawTensor.offset, CopyTypes.withSize]
  rw [hsrc', hdst', IntegerType.staticCast_of_has hsrc, IntegerType.staticCast_of_has hdst,
    dot_map_nsmul, dot_zip c hzip]
  refine Prod.ext ?_ ?_
  all_goals
    simp only [Prod.fst_add, Prod.snd_add, Prod.smul_fst, Prod.smul_snd]
    simp only [nsmul_eq_mul, mul_one]
    omega

/-! ## 4. The bytes of vectors -/

theorem mul_dot_tdiv {k : ℕ} {ss : List ℤ} (h : ∀ s ∈ ss, (k : ℤ) ∣ s) (c : List ℕ) :
    (k : ℤ) * dot c (ss.map (Int.tdiv · k)) = dot c ss := by
  have hmap : (ss.map (Int.tdiv · k)).map ((k : ℤ) * ·) = ss := by
    rw [List.map_map]
    conv_rhs => rw [← List.map_id ss]
    exact List.map_congr_left fun s hs => Int.mul_tdiv_cancel' (h s hs)
  exact (map_dot (AddMonoidHom.mulLeft (k : ℤ)) c _).trans (congrArg (dot c) hmap)

/-- The innermost mode apart from the others. -/
structure Rows (p : RawPair) (e : ℕ) (es : List ℕ) (ss ds : List ℤ) : Prop where
  extents : p.1.activeExtents = e :: es
  src : p.1.activeStrides = 1 :: ss
  dst : p.2.activeStrides = 1 :: ds
  src_length : ss.length = es.length
  dst_length : ds.length = es.length
  src_rank : p.1.rank = es.length + 1
  dst_rank : p.2.rank = es.length + 1

theorem Rows.shaped {e : ℕ} {es : List ℕ} {ss ds : List ℤ} (h : Rows p e es ss ds) : Shaped p := by
  refine ⟨?_, ?_, ?_, ?_⟩
  · rw [h.src, h.extents, List.length_cons, List.length_cons, h.src_length]
  · rw [h.dst, h.extents, List.length_cons, List.length_cons, h.dst_length]
  · rw [h.extents, List.length_cons, h.src_rank]
  · rw [h.extents, List.length_cons, h.dst_rank]

theorem take_cons_of_pos {α : Type} {l : List α} {n : ℕ} {a : α} {as : List α}
    (h : l.take n = a :: as) : ∃ tail r, l = a :: tail ∧ n = r + 1 ∧ tail.take r = as := by
  cases n with
  | zero => exact absurd h.symm (List.cons_ne_nil a as)
  | succ r =>
    cases l with
    | nil => exact absurd h.symm (List.cons_ne_nil a as)
    | cons b tail =>
      obtain ⟨rfl, htail⟩ := List.cons.inj h
      exact ⟨tail, r, rfl, rfl, htail⟩

theorem ContiguousPair.exists_rows (hp : ContiguousPair m types p) :
    ∃ e es ss ds, Rows p e es ss ds ∧ 0 < e ∧ e = (p.1.extents.headD 0).toNat := by
  have hrank := hp.rank_pos
  have hle := hp.rank_le
  have hlength : ∀ l : List ℤ, l.length = p.1.extents.length → ∃ a as, l.take p.1.rank = a :: as ∧
      a = l.headD 0 ∧ as.length + 1 = p.1.rank := by
    intro l hl
    obtain ⟨r, hr⟩ : ∃ r, p.1.rank = r + 1 := ⟨p.1.rank - 1, by omega⟩
    cases l with
    | nil =>
      rw [List.length_nil] at hl
      omega
    | cons a as =>
      refine ⟨a, as.take r, by rw [hr, List.take_succ_cons], rfl, ?_⟩
      rw [List.length_cons] at hl
      rw [List.length_take, min_eq_left (by omega), hr]
  obtain ⟨e, es, hes, he, hesLength⟩ := hlength _ rfl
  obtain ⟨s, ss, hss, hs, hssLength⟩ := hlength _ hp.src_length
  obtain ⟨d, ds, hds, hd, hdsLength⟩ := hlength _ hp.dst_length
  have hextents : p.1.activeExtents = e.toNat :: es.map Int.toNat := by
    rw [RawTensor.activeExtents, hes, List.map_cons]
  refine ⟨e.toNat, es.map Int.toNat, ss, ds, ⟨hextents, ?_, ?_, ?_, ?_, ?_, ?_⟩, ?_, by rw [he]⟩
  · rw [RawTensor.activeStrides, hss, hs, hp.src_contiguous]
  · rw [RawTensor.activeStrides, hp.rank_eq, hds, hd, hp.dst_contiguous]
  · rw [List.length_map]
    omega
  · rw [List.length_map]
    omega
  · rw [List.length_map]
    omega
  · rw [List.length_map, hp.rank_eq]
    omega
  · exact hp.extent_pos _ (by rw [hextents]; exact List.mem_cons_self)

theorem activeStrides_reshape {vectorBytes : ℕ} {t : RawTensor} {ss : List ℤ}
    (h : t.activeStrides = 1 :: ss) : (reshapeVectorized vectorBytes size t).activeStrides =
      1 :: ss.map (Int.tdiv · (vectorBytes / size : ℕ)) := by
  obtain ⟨tail, r, htail, hrank, rfl⟩ := take_cons_of_pos h
  rw [RawTensor.activeStrides, reshapeVectorized, htail, hrank]
  simp only [List.take_succ_cons, List.take_zero, List.drop_succ_cons, List.drop_zero,
    List.cons_append, List.nil_append, max_eq_right (Nat.le_add_left 1 r), List.take_append,
    List.length_map, List.length_take, ← List.map_take, List.take_take, min_self]
  rcases Nat.le_total r tail.length with hle | hle
  · rw [min_eq_left hle, Nat.sub_self, List.take_zero, List.append_nil]
  · rw [List.drop_eq_nil_of_le hle, List.take_nil, List.append_nil]

theorem reshapeVectorized_self {t : RawTensor} (hsize : 0 < size) (hrank : 0 < t.rank) :
    reshapeVectorized size size t = t := by
  obtain ⟨r, hr⟩ : ∃ r, t.rank = r + 1 := ⟨t.rank - 1, by omega⟩
  have hid : (Int.tdiv · ((1 : ℕ) : ℤ)) = id := funext fun x => Int.tdiv_one x
  have hhead : t.extents.modifyHead id = t.extents := by cases t.extents <;> rfl
  have hstrides : t.strides.take 1 ++ (t.strides.take t.rank).drop 1 ++
      t.strides.drop (max 1 t.rank) = t.strides := by
    rw [hr, max_eq_right (Nat.le_add_left 1 r)]
    cases t.strides with
    | nil => rfl
    | cons s ss =>
      rw [List.take_succ_cons, List.take_succ_cons, List.drop_succ_cons, List.drop_succ_cons,
        List.take_zero, List.drop_zero, List.cons_append, List.nil_append, List.cons_append,
        List.take_append_drop]
  rw [reshapeVectorized, Nat.div_self hsize, hid, hhead, List.map_id, hstrides]

theorem Rows.reshape {e : ℕ} {es : List ℕ} {ss ds : List ℤ} (h : Rows p e es ss ds) (hpos : 0 < e)
    (vectorBytes size : ℕ) :
    Rows (reshapeVectorized vectorBytes size p.1, reshapeVectorized vectorBytes size p.2)
      (e / (vectorBytes / size)) es (ss.map (Int.tdiv · (vectorBytes / size : ℕ)))
      (ds.map (Int.tdiv · (vectorBytes / size : ℕ))) := by
  refine ⟨?_, activeStrides_reshape h.src, activeStrides_reshape h.dst,
    by rw [List.length_map, h.src_length], by rw [List.length_map, h.dst_length], h.src_rank,
    h.dst_rank⟩
  have hextents := h.extents
  rw [RawTensor.activeExtents] at hextents
  obtain ⟨x, rest, hx⟩ : ∃ x rest, p.1.extents.take p.1.rank = x :: rest := by
    cases hx : p.1.extents.take p.1.rank with
    | nil => exact absurd (hx ▸ hextents).symm (List.cons_ne_nil e es)
    | cons x rest => exact ⟨x, rest, rfl⟩
  rw [hx, List.map_cons] at hextents
  obtain ⟨rfl, rfl⟩ := List.cons.inj hextents
  obtain ⟨tail, r, htail, hrank, rfl⟩ := take_cons_of_pos hx
  change ((reshapeVectorized vectorBytes size p.1).extents.take p.1.rank).map Int.toNat = _
  rw [reshapeVectorized, htail, hrank, List.modifyHead_cons, List.take_succ_cons, List.map_cons]
  congr 1
  obtain ⟨n, hn⟩ := Int.eq_ofNat_of_zero_le (by omega : 0 ≤ x)
  rw [hn, Int.toNat_natCast]
  rfl

/-- What is left of a value by a division is a value of the type. -/
theorem has_of_mul {S : IntegerType} {k : ℕ} {x : ℤ} (hk : 0 < k) (h : S.Has m (k * x)) : S.Has m x := by
  obtain ⟨hmin, hmax⟩ := h
  have hzero : S.min m ≤ 0 := by
    rw [IntegerType.min]
    split
    · exact Int.neg_nonpos_of_nonneg (pow_nonneg (by decide) _)
    · exact le_rfl
  have hk' : (1 : ℤ) ≤ k := by exact_mod_cast hk
  rcases le_total 0 x with hx | hx
  · exact ⟨hzero.trans hx, (le_mul_of_one_le_left hx hk').trans hmax⟩
  · have hle : (k : ℤ) * x ≤ x := by nlinarith
    exact ⟨hmin.trans hle, hx.trans (Int.natCast_nonneg _)⟩

/-- **The vectors of a pair have the bytes of its elements.** -/
theorem transferredBytes_reshape {e : ℕ} {es : List ℕ} {ss ds : List ℤ} (h : Rows p e es ss ds)
    (hpos : 0 < e) {k : ℕ} (hk : 0 < k) (hsize : 0 < size) (hextent : k ∣ e)
    (hss : ∀ s ∈ ss, (k : ℤ) ∣ s) (hds : ∀ s ∈ ds, (k : ℤ) ∣ s) (hfit : OffsetsFit m types p) :
    transferredBytes m types (k * size)
        (reshapeVectorized (k * size) size p.1, reshapeVectorized (k * size) size p.2) =
      transferredBytes m types size p := by
  have hrows := h.reshape hpos (k * size) size
  rw [Nat.mul_div_cancel _ hsize] at hrows
  have hfit' : OffsetsFit m types
      (reshapeVectorized (k * size) size p.1, reshapeVectorized (k * size) size p.2) := by
    intro c hc
    rw [hrows.extents] at hc
    cases hc with
    | cons hi his =>
      rename_i i is
      have hle : k * i < e := by
        rwa [Nat.lt_div_iff_mul_lt' hextent] at hi
      have hbase := hfit (k * i :: is) (by rw [h.extents]; exact .cons hle his)
      rw [h.src, h.dst, dot_cons, dot_cons, ← mul_dot_tdiv hss, ← mul_dot_tdiv hds, nsmul_eq_mul,
        mul_one, Nat.cast_mul, ← mul_add, ← mul_add] at hbase
      rw [hrows.src, hrows.dst, dot_cons, dot_cons, nsmul_eq_mul, mul_one]
      exact ⟨has_of_mul hk hbase.1, has_of_mul hk hbase.2⟩
  rw [transferredBytes_eq hrows.shaped hfit', transferredBytes_eq h.shaped hfit, hrows.extents,
    hrows.src, hrows.dst, h.extents, h.src, h.dst]
  have hrest : ((ss.map (Int.tdiv · k)).zip (ds.map (Int.tdiv · k))).map ((k * size) • ·) =
      (ss.zip ds).map (size • ·) := by
    rw [List.zip_map, List.map_map]
    refine List.map_congr_left fun a ha => ?_
    obtain ⟨hsrc, hdst⟩ := List.of_mem_zip ha
    have hscale : ∀ s : ℤ, (k : ℤ) ∣ s → (k * size) • s.tdiv k = size • s := by
      intro s hs
      rw [nsmul_eq_mul, nsmul_eq_mul, Nat.cast_mul, mul_comm (k : ℤ), mul_assoc,
        Int.mul_tdiv_cancel' hs]
    exact Prod.ext (hscale a.1 (hss a.1 hsrc)) (hscale a.2 (hds a.2 hdst))
  -- in both the bytes of a row follow each other, and the rows are where they were
  have hrow : k * size * (e / k) = size * e := by
    rw [Nat.mul_right_comm, Nat.mul_div_cancel' hextent, Nat.mul_comm]
  simp only [List.zip_cons_cons, List.map_cons, hrest]
  rw [places_merge, places_merge, hrow]
  rfl

/-! ## 5. Sums that leave the stride type -/

theorem exists_step : ∀ {c : List ℕ} {ss : List ℤ}, dot c ss ≠ 0 →
    ∃ c' s, s ∈ ss ∧ List.Forall₂ (· ≤ ·) c' c ∧ c'.sum < c.sum ∧ dot c ss = dot c' ss + s
  | [], ss, h => absurd rfl h
  | i :: is, [], h => absurd rfl h
  | 0 :: is, s :: ss, h => by
    rw [dot_cons, zero_nsmul, zero_add] at h
    obtain ⟨c', s', hs', hle, hsum, hdot⟩ := exists_step h
    refine ⟨0 :: c', s', List.mem_cons_of_mem _ hs', .cons le_rfl hle, ?_, ?_⟩
    · simpa using hsum
    · rw [dot_cons, dot_cons, zero_nsmul, zero_add, zero_add, hdot]
  | (i + 1) :: is, s :: ss, _ => by
    refine ⟨i :: is, s, List.mem_cons_self, .cons (Nat.le_succ i) (List.forall₂_same.mpr ?_), ?_, ?_⟩
    · exact fun _ _ => le_rfl
    · rw [List.sum_cons, List.sum_cons]
      omega
    · rw [dot_cons, dot_cons, succ_nsmul]
      omega

theorem Fits.of_le {c' c es : List ℕ} (hle : List.Forall₂ (· ≤ ·) c' c) (h : Fits c es) :
    Fits c' es := by
  induction hle generalizing es with
  | nil => exact h
  | cons hi _ ih =>
    cases h with
    | cons hlt hrest => exact .cons (hi.trans_lt hlt) (ih hrest)

/-- **A sum that leaves the type does so with one step.** -/
theorem exists_leaves {S : IntegerType} {es : List ℕ} {ss : List ℤ} (hhas : ∀ s ∈ ss, S.Has m s) :
    ∀ (n : ℕ) (c : List ℕ), c.sum = n → Fits c es → ¬ S.Has m (dot c ss) →
      ∃ c' v s, Fits c' es ∧ ¬ S.Has m (dot c' ss) ∧ S.Has m v ∧ S.Has m s ∧ dot c' ss = v + s := by
  intro n
  induction n using Nat.strong_induction_on with
  | _ n ih =>
    intro c hn hc hnot
    have hne : dot c ss ≠ 0 := by
      intro hzero
      rw [hzero] at hnot
      exact hnot (IntegerType.has_of_le (Nat.zero_le _))
    obtain ⟨c', s, hs, hle, hsum, hdot⟩ := exists_step hne
    by_cases hhas' : S.Has m (dot c' ss)
    · exact ⟨c, dot c' ss, s, hc, hnot, hhas', hhas s hs, hdot⟩
    · exact ih c'.sum (by omega) c' rfl (Fits.of_le hle hc) hhas'

theorem has_div {S : IntegerType} {v s : ℤ} (hv : S.Has m v) (hs : S.Has m s) {k : ℕ} (hk : 2 ≤ k) :
    S.Has m ((v + s) / k) := by
  have hk' : (2 : ℤ) ≤ k := by exact_mod_cast hk
  have hpos : (0 : ℤ) < k := by omega
  have hzero : S.Has m 0 := IntegerType.has_of_le (Nat.zero_le _)
  obtain ⟨hv₁, hv₂⟩ := hv
  obtain ⟨hs₁, hs₂⟩ := hs
  constructor
  · rw [Int.le_ediv_iff_mul_le hpos]
    nlinarith [hzero.1]
  · refine Int.ediv_le_of_le_mul hpos ?_
    nlinarith [hzero.2]

/-- The bytes on one side of a copy. -/
def sideBytes (m : DataModel) (S : IntegerType) (size : ℕ) (extents : List ℕ) (t : RawTensor) :
    Multiset ℤ :=
  (coords extents).bind fun c => (Multiset.range size).map fun b : ℕ => t.address m S size c + b

theorem map_fst_transferredBytes : (transferredBytes m types size p).map Prod.fst =
    sideBytes m types.srcStride size p.1.activeExtents p.1 := by
  rw [transferredBytes, transfers, Multiset.bind_map, Multiset.map_bind]
  simp only [Multiset.map_map, Function.comp_def]
  rfl

theorem map_snd_transferredBytes : (transferredBytes m types size p).map Prod.snd =
    sideBytes m types.dstStride size p.1.activeExtents p.2 := by
  rw [transferredBytes, transfers, Multiset.bind_map, Multiset.map_bind]
  simp only [Multiset.map_map, Function.comp_def]
  rfl

/-- One side of a copy of vectors reaches an element that its elements do not reach. -/
theorem sideBytes_ne {S : IntegerType} {t : RawTensor} {e k : ℕ} {es : List ℕ} {ss : List ℤ}
    (hsize : 0 < size) (hk : 2 ≤ k) (hextent : k ∣ e) (hstrides : t.activeStrides = 1 :: ss)
    (hrank : t.rank = es.length + 1) (hss : ∀ s ∈ ss, (k : ℤ) ∣ s) (hhas : ∀ s ∈ ss, S.Has m s)
    {c : List ℕ} (hc : Fits c (e :: es)) (hnot : ¬ S.Has m (dot c t.activeStrides)) :
    sideBytes m S (k * size) (e / k :: es) (reshapeVectorized (k * size) size t) ≠
      sideBytes m S size (e :: es) t := by
  have hone : S.Has m 1 := has_one
  rw [hstrides] at hnot
  obtain ⟨c', v, s, hc', hnot', hv, hs, hdot⟩ := exists_leaves (List.forall_mem_cons.mpr ⟨hone, hhas⟩)
    _ c rfl hc hnot
  cases hc' with
  | cons hi his =>
    rename_i i is
    have hkpos : 0 < k := by omega
    rw [dot_cons, nsmul_eq_mul, mul_one, ← mul_dot_tdiv hss] at hdot hnot'
    obtain ⟨x, hx⟩ : ∃ x, dot is (ss.map (Int.tdiv · k)) = x := ⟨_, rfl⟩
    rw [hx] at hdot hnot'
    -- the vector in which the element is
    have hquotient : dot (i / k :: is) (1 :: ss.map (Int.tdiv · k)) = (v + s) / k := by
      rw [dot_cons, nsmul_eq_mul, mul_one, hx, ← hdot, Int.add_mul_ediv_left _ _ (by omega)]
      rfl
    have hactive := @activeStrides_reshape size (k * size) t ss hstrides
    rw [Nat.mul_div_cancel _ hsize] at hactive
    have hvector : (reshapeVectorized (k * size) size t).offset m S (i / k :: is) = (v + s) / k := by
      have htake := dot_take (i / k :: is) (reshapeVectorized (k * size) size t).strides
      have hlength : (i / k :: is).length = t.rank := by
        rw [List.length_cons, his.length_eq, hrank]
      rw [hlength] at htake
      rw [RawTensor.offset, ← htake]
      change S.staticCast m (dot _ (reshapeVectorized (k * size) size t).activeStrides) = _
      rw [hactive, hquotient, IntegerType.staticCast_of_has (has_div hv hs hk)]
    intro heq
    have hmem : t.data + size * (i + k * x) ∈ sideBytes m S (k * size) (e / k :: es)
        (reshapeVectorized (k * size) size t) := by
      refine Multiset.mem_bind.mpr ⟨i / k :: is, mem_coords.mpr (.cons ?_ his), ?_⟩
      · rw [Nat.div_lt_iff_lt_mul hkpos, Nat.div_mul_cancel hextent]
        exact hi
      · refine Multiset.mem_map.mpr ⟨i % k * size, Multiset.mem_range.mpr ?_, ?_⟩
        · exact Nat.mul_lt_mul_of_pos_right (Nat.mod_lt i hkpos) hsize
        · have hdata : (reshapeVectorized (k * size) size t).data = t.data := rfl
          have hmod : ((i % k : ℕ) : ℤ) = i - k * ((i : ℤ) / k) := by
            rw [Int.natCast_mod, Int.emod_def]
          rw [RawTensor.address, hvector, ← hdot, Int.add_mul_ediv_left _ _ (by omega),
            Nat.cast_mul, Nat.cast_mul, hmod, hdata]
          ring
    rw [heq] at hmem
    obtain ⟨c'', -, hmem'⟩ := Multiset.mem_bind.mp hmem
    obtain ⟨b, hb, hb'⟩ := Multiset.mem_map.mp hmem'
    rw [Multiset.mem_range] at hb
    rw [RawTensor.address] at hb'
    have hsize' : (0 : ℤ) < size := by exact_mod_cast hsize
    have hsame : (i : ℤ) + k * x = t.offset m S c'' := by
      have hdiff : (b : ℤ) = size * ((i + k * x) - t.offset m S c'') := by
        rw [mul_sub]
        omega
      by_contra hne
      rcases lt_or_gt_of_ne hne with hlt | hgt
      · nlinarith
      · have hb'' : (b : ℤ) < size := by exact_mod_cast hb
        nlinarith
    rw [hsame] at hnot'
    exact hnot' (IntegerType.has_staticCast _)

/-- A copy of vectors that transfers the bytes of the elements stays in the stride types. -/
theorem offsetsFit_of_eq (hp : ContiguousPair m types p) {k : ℕ} (hsize : 0 < size) (hk : 2 ≤ k)
    (hextent : k ∣ (p.1.extents.headD 0).toNat)
    (hstrides : ∀ s ∈ p.1.activeStrides.drop 1 ++ p.2.activeStrides.drop 1, (k : ℤ) ∣ s)
    (heq : transferredBytes m types (k * size)
        (reshapeVectorized (k * size) size p.1, reshapeVectorized (k * size) size p.2) =
      transferredBytes m types size p) : OffsetsFit m types p := by
  obtain ⟨e, es, ss, ds, hrows, hpos, he⟩ := hp.exists_rows
  have hreshape := hrows.reshape hpos (k * size) size
  rw [Nat.mul_div_cancel _ hsize] at hreshape
  rw [← he] at hextent
  rw [hrows.src, hrows.dst, List.drop_succ_cons, List.drop_zero, List.drop_succ_cons, List.drop_zero,
    List.forall_mem_append] at hstrides
  have hsrc := hrows.src ▸ hp.src_has
  have hdst := hrows.dst ▸ hp.dst_has
  intro c hc
  rw [hrows.extents] at hc
  constructor
  · by_contra hnot
    refine sideBytes_ne hsize hk hextent hrows.src hrows.src_rank hstrides.1
      (List.forall_mem_cons.mp hsrc).2 hc hnot ?_
    have hside := congrArg (Multiset.map Prod.fst) heq
    rw [map_fst_transferredBytes, map_fst_transferredBytes, hreshape.extents, hrows.extents] at hside
    exact hside
  · by_contra hnot
    refine sideBytes_ne hsize hk hextent hrows.dst hrows.dst_rank hstrides.2
      (List.forall_mem_cons.mp hdst).2 hc hnot ?_
    have hside := congrArg (Multiset.map Prod.snd) heq
    rw [map_snd_transferredBytes, map_snd_transferredBytes, hreshape.extents, hrows.extents] at hside
    exact hside

/-! ## 6. When the copies are the same -/

/-- There is room for two elements in a vector. -/
def Widens (platform : VectorPlatform) (size : ℕ) (p : RawPair) : Prop :=
  2 * size ≤ maxGpuArchVectorSize platform ∧ Divides (2 * size) size p.1 ∧ Divides (2 * size) size p.2

/-- The element is not larger than the widest vector of the device, both pointers are multiples of its
size, and where two elements fit into a vector no stride behind the innermost one is one or minus one,
and no offset leaves its stride type. -/
structure VectorsFit (m : DataModel) (types : CopyTypes) (platform : VectorPlatform) (size : ℕ)
    (p : RawPair) : Prop where
  size_le : size ≤ maxGpuArchVectorSize platform
  src_aligned : (size : ℤ) ∣ p.1.data
  dst_aligned : (size : ℤ) ∣ p.2.data
  wider : Widens platform size p →
    (∀ s ∈ p.1.activeStrides.drop 1 ++ p.2.activeStrides.drop 1, s.natAbs ≠ 1) ∧ OffsetsFit m types p

theorem CopiesVectors.dispatched (h : CopiesVectors m types platform size p) :
    ∃ width, dispatchedWidth platform size (vectorSizeBytes platform size p) = some width ∧
      ReshapeAsserts width size p.1 ∧ ReshapeAsserts width size p.2 ∧
      transferredBytes m types width (reshapeVectorized width size p.1, reshapeVectorized width size p.2) =
        transferredBytes m types size p := by
  obtain ⟨q, width, hdispatch, hsrc, hdst, hbytes⟩ := h.copies
  rw [dispatchByVectorSize, Option.map_eq_some_iff] at hdispatch
  obtain ⟨width', hwidth, heq⟩ := hdispatch
  obtain ⟨rfl, rfl⟩ := Prod.mk.inj heq
  exact ⟨width', hwidth, hsrc, hdst, hbytes⟩

theorem vectorSizeBytes_le : vectorSizeBytes platform size p ≤ maxGpuArchVectorSize platform :=
  (min_le_right _ _).trans (min_le_right _ _)

theorem dispatchedWidth_dvd {j vectorSize width : ℕ}
    (h : dispatchedWidth platform (2 ^ j) vectorSize = some width) : 2 ^ j ∣ width := by
  have hle := (dispatchedWidth_eq_some h).1
  obtain ⟨k, rfl⟩ : ∃ k, width = 2 ^ k := by
    unfold dispatchedWidth at h
    split_ifs at h <;> obtain rfl := Option.some.inj h
    exacts [⟨5, rfl⟩, ⟨4, rfl⟩, ⟨3, rfl⟩, ⟨2, rfl⟩, ⟨1, rfl⟩, ⟨0, rfl⟩]
  exact Nat.pow_dvd_pow 2 ((Nat.pow_le_pow_iff_right (by decide)).mp hle)

theorem CopiesVectors.fit (hp : ContiguousPair m types p) {j : ℕ}
    (h : CopiesVectors m types platform (2 ^ j) p) : VectorsFit m types platform (2 ^ j) p := by
  obtain ⟨width, hwidth, hsrc, hdst, hbytes⟩ := h.dispatched
  have hdvd : ((2 ^ j : ℕ) : ℤ) ∣ (width : ℤ) := by exact_mod_cast dispatchedWidth_dvd hwidth
  have hsrc' := hdvd.trans hsrc.aligned
  have hdst' := hdvd.trans hdst.aligned
  obtain ⟨w, hw, hvalue, hctk, hle⟩ := vectorSizeBytes_spec platform hp hsrc' hdst'
  obtain ⟨hroom, hone⟩ := dispatchedWidth_eq_some hwidth
  refine ⟨?_, hsrc', hdst', fun hwidens => ?_⟩
  · rcases hone with heq | heq
    · exact hroom.trans (heq ▸ vectorSizeBytes_le)
    · have harch : 1 ≤ maxGpuArchVectorSize platform := by
        obtain ⟨g, -, harch, -⟩ := @exists_maxGpuArchVectorSize platform
        rw [harch]
        exact Nat.one_le_two_pow
      exact (heq ▸ hroom).trans harch
  · have hmore : j + 1 ≤ w := by
      rw [hle (j + 1) (Nat.le_succ j), Nat.pow_succ']
      exact hwidens
    -- the branch is the one of the width
    rw [hvalue, dispatchedWidth_two_pow (by omega) hw hctk, Option.some.injEq] at hwidth
    subst hwidth
    have hquotient : 2 ^ w / 2 ^ j = 2 ^ (w - j) := Nat.pow_div (by omega) (by decide)
    have hsplit : 2 ^ w = 2 ^ (w - j) * 2 ^ j := by rw [← Nat.pow_add, Nat.sub_add_cancel (by omega)]
    have htwo : 2 ≤ 2 ^ (w - j) := by
      calc 2 = 2 ^ 1 := rfl
        _ ≤ 2 ^ (w - j) := Nat.pow_le_pow_right (by decide) (by omega)
    have hstrides : ∀ s ∈ p.1.activeStrides.drop 1 ++ p.2.activeStrides.drop 1,
        ((2 ^ (w - j) : ℕ) : ℤ) ∣ s := by
      rw [List.forall_mem_append, ← hquotient]
      exact ⟨hsrc.strides, hdst.strides⟩
    refine ⟨fun s hs hunit => ?_, ?_⟩
    · have hdvd' := Int.natCast_dvd.mp (hstrides s hs)
      rw [hunit] at hdvd'
      exact absurd (Nat.le_of_dvd Nat.one_pos hdvd') (by omega)
    · have hextent := hsrc.extent
      rw [hquotient] at hextent
      rw [hsplit] at hbytes
      exact offsetsFit_of_eq hp (Nat.two_pow_pos j) htwo hextent hstrides hbytes

theorem VectorsFit.copies (hp : ContiguousPair m types p) {j : ℕ}
    (h : VectorsFit m types platform (2 ^ j) p) : CopiesVectors m types platform (2 ^ j) p := by
  obtain ⟨w, hw, hvalue, hctk, hle⟩ :=
    vectorSizeBytes_spec platform hp h.src_aligned h.dst_aligned
  have htrivial : ∀ t : RawTensor, ((2 ^ j : ℕ) : ℤ) ∣ t.data → Divides (2 ^ j) (2 ^ j) t :=
    fun t ht => ⟨ht, Nat.dvd_mul_left _ _, fun s _ _ => Nat.dvd_mul_left _ _⟩
  have hjw : j ≤ w := (hle j le_rfl).mpr ⟨h.size_le, htrivial _ h.src_aligned, htrivial _ h.dst_aligned⟩
  obtain ⟨-, hsrc, hdst⟩ := (hle w hjw).mp le_rfl
  have hquotient : 2 ^ w / 2 ^ j = 2 ^ (w - j) := Nat.pow_div hjw (by decide)
  have hsplit : 2 ^ w = 2 ^ (w - j) * 2 ^ j := by rw [← Nat.pow_add, Nat.sub_add_cancel hjw]
  have hwidth := dispatchedWidth_two_pow hjw hw hctk
  have hfit : w = j ∨ (∀ s ∈ p.1.activeStrides.drop 1 ++ p.2.activeStrides.drop 1, s.natAbs ≠ 1) ∧
      OffsetsFit m types p := by
    refine (Nat.eq_or_lt_of_le hjw).imp Eq.symm fun hlt => h.wider ?_
    have hmore := (hle (j + 1) (Nat.le_succ j)).mp hlt
    rwa [Nat.pow_succ'] at hmore
  -- all strides are divided without a rest
  have hdivides : ∀ t : RawTensor, Divides (2 ^ w) (2 ^ j) t →
      (∀ s ∈ t.activeStrides.drop 1, s ∈ p.1.activeStrides.drop 1 ++ p.2.activeStrides.drop 1) →
      ∀ s ∈ t.activeStrides.drop 1, ((2 ^ (w - j) : ℕ) : ℤ) ∣ s := by
    intro t ht hmem s hs
    rcases hfit with heq | ⟨hunit, -⟩
    · rw [heq, Nat.sub_self]
      exact one_dvd _
    · have hbytes := ht.strides s (List.mem_of_mem_drop hs) (hunit s (hmem s hs))
      rw [hsplit] at hbytes
      exact Int.natCast_dvd.mpr (Nat.dvd_of_mul_dvd_mul_right (Nat.two_pow_pos j) hbytes)
  have hsrc' := hdivides p.1 hsrc fun s hs => List.mem_append_left _ hs
  have hdst' := hdivides p.2 hdst fun s hs => List.mem_append_right _ hs
  have hextent : 2 ^ (w - j) ∣ (p.1.extents.headD 0).toNat := by
    have hbytes := hsrc.extent
    rw [hsplit] at hbytes
    exact Nat.dvd_of_mul_dvd_mul_right (Nat.two_pow_pos j) hbytes
  refine ⟨?_, ?_, ?_, (reshapeVectorized (2 ^ w) (2 ^ j) p.1, reshapeVectorized (2 ^ w) (2 ^ j) p.2),
    2 ^ w, ?_, ?_, ?_, ?_⟩
  · rw [hvalue]
    exact ⟨hsrc.data, hdst.data⟩
  · rw [hvalue]
    exact hsrc.extent
  · rw [hvalue, hsplit, List.forall_mem_append]
    push_cast
    refine ⟨fun s hs => mul_dvd_mul_right ?_ _, fun s hs => mul_dvd_mul_right ?_ _⟩
    · exact_mod_cast hsrc' s hs
    · exact_mod_cast hdst' s hs
  · rw [dispatchByVectorSize, hvalue, hwidth, Option.map_some]
  · exact ⟨hp.src_contiguous, hquotient ▸ hextent, hsrc.data, hquotient ▸ hsrc'⟩
  · exact ⟨hp.dst_contiguous, hp.extents_eq ▸ hquotient ▸ hextent, hdst.data, hquotient ▸ hdst'⟩
  · rcases hfit with rfl | ⟨-, hfit⟩
    · have hrank := hp.rank_pos
      rw [reshapeVectorized_self (Nat.two_pow_pos w) hrank,
        reshapeVectorized_self (Nat.two_pow_pos w) (hp.rank_eq ▸ hrank)]
    · obtain ⟨e, es, ss, ds, hrows, hpos, he⟩ := hp.exists_rows
      rw [hrows.src, List.drop_succ_cons, List.drop_zero] at hsrc'
      rw [hrows.dst, List.drop_succ_cons, List.drop_zero] at hdst'
      rw [hsplit]
      exact transferredBytes_reshape hrows hpos (Nat.two_pow_pos _) (Nat.two_pow_pos j)
        (he ▸ hextent) hsrc' hdst' hfit

/-- **When a vectorised copy is the element-wise one.** -/
theorem copiesVectors_iff (hp : ContiguousPair m types p) (j : ℕ) :
    CopiesVectors m types platform (2 ^ j) p ↔ VectorsFit m types platform (2 ^ j) p :=
  ⟨CopiesVectors.fit hp, VectorsFit.copies hp⟩

/-- A copy of bytes, with strides in `int`. -/
def byteCopy : CopyTypes := ⟨⟨.int, true⟩, ⟨.int, true⟩, ⟨.int, true⟩, 1, 1⟩

/-- Two rows of four bytes, the source with a gap between them. -/
def paddedRows : RawPair :=
  (⟨4096, 2, [4, 2], [1, 8]⟩, ⟨8192, 2, [4, 2], [1, 4]⟩)

theorem copiesVectors_paddedRows : CopiesVectors .lp64 byteCopy ⟨true, 10⟩ 1 paddedRows := by
  have hpair : ContiguousPair .lp64 byteCopy paddedRows :=
    ⟨by decide, rfl, rfl, by decide, rfl, rfl, by decide, rfl, rfl, by decide, by decide, by decide,
      by decide⟩
  have hoffsets : ∀ c ∈ coords [4, 2], byteCopy.srcStride.Has .lp64 (dot c [(1 : ℤ), 8]) ∧
      byteCopy.dstStride.Has .lp64 (dot c [(1 : ℤ), 4]) := by decide
  exact (copiesVectors_iff hpair 0).mpr ⟨by decide, one_dvd _, one_dvd _, fun _ =>
    ⟨by decide, fun c hc => hoffsets c (mem_coords.mpr hc)⟩⟩

/-- A source that reads one byte on for each column and for each row, as `layout_stride_relaxed` allows. -/
def slidingWindow : View := ⟨4096, .relaxed ⟨[8, 4], [1, 1], 0⟩⟩

/-- A destination without gaps. -/
def windows : View := ⟨65536, .standard ⟨.left, [8, 4]⟩⟩

/-- **The stride of the rows is one, and is divided away.** -/
theorem not_copiesVectors_slidingWindow :
    let int : IntegerType := ⟨.int, true⟩
    let byte : ElementType := ⟨⟨0, 8, 1⟩, 1⟩
    let raw : RawPair := (toRawTensor .lp64 int int int 2 byte slidingWindow,
      toRawTensor .lp64 int int int 2 byte windows)
    let simplified := coalescePaired .lp64 byteCopy
      (flipNegativeStridesPaired .lp64 byteCopy (sortByStridePaired raw))
    ContiguousPair .lp64 byteCopy simplified ∧
      vectorSizeBytes ⟨true, 10⟩ 1 simplified = 8 ∧
      ¬ CopiesVectors .lp64 byteCopy ⟨true, 10⟩ 1 simplified := by
  intro int byte raw simplified
  have hsimplified : simplified =
      (⟨4096, 2, [8, 4], [1, 1]⟩, ⟨65536, 2, [8, 4], [1, 8]⟩) := by decide
  rw [hsimplified]
  have hwidth : vectorSizeBytes ⟨true, 10⟩ 1
      (⟨4096, 2, [8, 4], [1, 1]⟩, ⟨65536, 2, [8, 4], [1, 8]⟩) = 8 := by decide
  refine ⟨⟨by decide, rfl, rfl, by decide, rfl, rfl, by decide, rfl, rfl, by decide, by decide,
    by decide, by decide⟩, hwidth, fun h => ?_⟩
  have hdvd := h.strides 1 (by decide)
  rw [hwidth] at hdvd
  exact absurd hdvd (by decide)

end Cccl.Mdspan
