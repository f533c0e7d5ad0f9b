/-
# Pairwise sorting networks

A layer of a sorting network puts the pairs of entries in order whose indices differ by a stride; which index of a pair
is the lower one is told by the parity of its group (`Layer`).  Entries are boolean here, and there is no last one: from
some index on all of them are true, and comparing with a true entry changes nothing.

The pairwise network first compares neighbours.  Behind this, no entry at an even index is larger than the next one.
The network of half the size sorts the entries at even indices, and those at odd indices, and keeps that order, so that
there are at least as many false entries at even indices as at odd ones (`exists_sorted_halves`).  The last layers halve
the difference until it is at most one (`Halves.lastLayer`).
-/
import Mathlib.Algebra.Order.Ring.Nat
import Mathlib.Data.List.Range

namespace Cccl.PairwiseNetwork

/-! ## 1. Layers -/

structure Layer where
  group : ℕ
  parity : ℕ
  stride : ℕ

namespace Layer

/-- All pairs of the layer are put in order. -/
def act (L : Layer) (b : ℕ → Bool) (i : ℕ) : Bool :=
  if i / L.group % 2 = L.parity then b i && b (i + L.stride)
  else if L.stride ≤ i then b (i - L.stride) || b i else b i

/-- The layer of the entries at even indices, or at odd ones. -/
def double (L : Layer) : Layer := ⟨2 * L.group, L.parity, 2 * L.stride⟩

end Layer

/-- One layer after the other. -/
def acts (Ls : List Layer) (b : ℕ → Bool) : ℕ → Bool := Ls.foldl (fun b L => L.act b) b

/-- False entries, and true ones from an index on. -/
def trueFrom (z i : ℕ) : Bool := decide (z ≤ i)

variable {L : Layer} {Ls : List Layer} {b b' : ℕ → Bool} {n z p q h : ℕ}

theorem acts_append (Ls Ls' : List Layer) (b : ℕ → Bool) : acts (Ls ++ Ls') b = acts Ls' (acts Ls b) :=
  List.foldl_append

theorem acts_concat (Ls : List Layer) (L : Layer) (b : ℕ → Bool) : acts (Ls ++ [L]) b = L.act (acts Ls b) :=
  acts_append Ls [L] b

theorem Layer.act_mono (hle : ∀ i, b i = true → b' i = true) (i : ℕ) (hi : L.act b i = true) : L.act b' i = true := by
  unfold act at hi ⊢
  split
  · rename_i hlow
    rw [if_pos hlow, Bool.and_eq_true] at hi
    rw [Bool.and_eq_true]
    exact ⟨hle _ hi.1, hle _ hi.2⟩
  · rename_i hhigh
    rw [if_neg hhigh] at hi
    split
    · rename_i hstride
      rw [if_pos hstride, Bool.or_eq_true] at hi
      rw [Bool.or_eq_true]
      exact hi.imp (hle _) (hle _)
    · rename_i hstride
      rw [if_neg hstride] at hi
      exact hle _ hi

theorem acts_mono : ∀ {Ls : List Layer} {b b' : ℕ → Bool}, (∀ i, b i = true → b' i = true) →
    ∀ i, acts Ls b i = true → acts Ls b' i = true
  | [], _, _, hle => hle
  | L :: Ls, b, b', hle => @acts_mono Ls (L.act b) (L.act b') (Layer.act_mono hle)

theorem Layer.act_true (htrue : ∀ i, n ≤ i → b i = true) (i : ℕ) (hi : n ≤ i) : L.act b i = true := by
  unfold act
  split
  · rw [htrue i hi, htrue _ (Nat.le_add_right_of_le hi)]
    rfl
  · split
    · rw [htrue i hi, Bool.or_true]
    · exact htrue i hi

theorem acts_true : ∀ {Ls : List Layer} {b : ℕ → Bool}, (∀ i, n ≤ i → b i = true) →
    ∀ i, n ≤ i → acts Ls b i = true
  | [], _, htrue => htrue
  | L :: Ls, b, htrue => @acts_true Ls (L.act b) (Layer.act_true htrue)

/-! ## 2. Halves -/

theorem Layer.double_act_even (L : Layer) (b : ℕ → Bool) (k : ℕ) :
    L.double.act b (2 * k) = L.act (fun k => b (2 * k)) k := by
  have hgroup : 2 * k / (2 * L.group) = k / L.group := Nat.mul_div_mul_left _ _ (by decide)
  have hle : 2 * L.stride ≤ 2 * k ↔ L.stride ≤ k := Nat.mul_le_mul_left_iff (by decide)
  simp only [act, double, hgroup, hle, ← Nat.mul_add, ← Nat.mul_sub]

theorem Layer.double_act_odd (L : Layer) (b : ℕ → Bool) (k : ℕ) :
    L.double.act b (2 * k + 1) = L.act (fun k => b (2 * k + 1)) k := by
  have hgroup : (2 * k + 1) / (2 * L.group) = k / L.group := by
    rw [← Nat.div_div_eq_div_mul]
    congr 1
    omega
  have hle : 2 * L.stride ≤ 2 * k + 1 ↔ L.stride ≤ k := by omega
  simp only [act, double, hgroup, hle]
  split
  · rw [Nat.mul_add, Nat.add_right_comm]
  · split
    · rw [show 2 * k + 1 - 2 * L.stride = 2 * (k - L.stride) + 1 by omega]
    · rfl

theorem acts_double_even : ∀ (Ls : List Layer) (b : ℕ → Bool),
    (fun k => acts (Ls.map Layer.double) b (2 * k)) = acts Ls fun k => b (2 * k)
  | [], _ => rfl
  | L :: Ls, b => by
    have heven : (fun k => L.double.act b (2 * k)) = L.act fun k => b (2 * k) := funext (L.double_act_even b)
    change (fun k => acts (Ls.map Layer.double) (L.double.act b) (2 * k)) = acts Ls (L.act fun k => b (2 * k))
    rw [acts_double_even Ls, heven]

theorem acts_double_odd : ∀ (Ls : List Layer) (b : ℕ → Bool),
    (fun k => acts (Ls.map Layer.double) b (2 * k + 1)) = acts Ls fun k => b (2 * k + 1)
  | [], _ => rfl
  | L :: Ls, b => by
    have hodd : (fun k => L.double.act b (2 * k + 1)) = L.act fun k => b (2 * k + 1) := funext (L.double_act_odd b)
    change (fun k => acts (Ls.map Layer.double) (L.double.act b) (2 * k + 1)) = acts Ls (L.act fun k => b (2 * k + 1))
    rw [acts_double_odd Ls, hodd]

/-! ## 3. The last layers -/

/-- Both halves are sorted, with `p` false entries at even indices, and `q` at odd ones. -/
structure Halves (b : ℕ → Bool) (p q : ℕ) : Prop where
  even : ∀ k, b (2 * k) = trueFrom p k
  odd : ∀ k, b (2 * k + 1) = trueFrom q k

/-- **A last layer** halves the difference. -/
theorem Halves.lastLayer (hb : Halves b p q) (hle : q ≤ p) (hdiff : p ≤ q + 2 * h) (hpos : 0 < h) :
    ∃ p' q', Halves (Layer.act ⟨1, 1, 2 * h - 1⟩ b) p' q' ∧ q' ≤ p' ∧ p' ≤ q' + h := by
  refine ⟨min p (q + h), max q (p - h), ⟨fun k => ?_, fun k => ?_⟩, by omega, by omega⟩
  · rw [Layer.act, if_neg (by dsimp only; rw [Nat.div_one]; omega), hb.even]
    dsimp only
    split
    · rw [show 2 * k - (2 * h - 1) = 2 * (k - h) + 1 by omega, hb.odd, trueFrom, trueFrom, trueFrom,
        ← Bool.decide_or]
      exact decide_eq_decide.mpr (by omega)
    · exact decide_eq_decide.mpr (by omega)
  · rw [Layer.act, if_pos (by dsimp only; rw [Nat.div_one]; omega), hb.odd]
    dsimp only
    rw [show 2 * k + 1 + (2 * h - 1) = 2 * (k + h) by omega, hb.even, trueFrom, trueFrom, trueFrom, ← Bool.decide_and]
    exact decide_eq_decide.mpr (by omega)

/-- The last layers of the network with twice as many entries as `2 ^ d`. -/
def lastLayers (d : ℕ) : List Layer := (List.range d).map fun t => ⟨1, 1, 2 ^ (d - t) - 1⟩

/-- **The last layers sort**, if both halves are sorted. -/
theorem Halves.lastLayers {d : ℕ} (hb : Halves b p q) (hle : q ≤ p) (hdiff : p ≤ q + 2 ^ d) :
    ∃ z, acts (lastLayers d) b = trueFrom z := by
  have hrows : ∀ t ≤ d, ∃ p q, Halves (acts ((List.range t).map fun t => ⟨1, 1, 2 ^ (d - t) - 1⟩) b) p q ∧ q ≤ p ∧
      p ≤ q + 2 ^ (d - t) := by
    intro t
    induction t with
    | zero => exact fun _ => ⟨p, q, hb, hle, hdiff⟩
    | succ t ih =>
      intro ht
      obtain ⟨p, q, hhalves, hle, hdiff⟩ := ih (by omega)
      have hpow : 2 ^ (d - t) = 2 * 2 ^ (d - (t + 1)) := by
        rw [show d - t = d - (t + 1) + 1 by omega, Nat.pow_succ, Nat.mul_comm]
      rw [List.range_succ, List.map_append, List.map_singleton, acts_concat, hpow]
      rw [hpow] at hdiff
      exact hhalves.lastLayer hle hdiff (Nat.two_pow_pos _)
  obtain ⟨p, q, hhalves, hle, hdiff⟩ := hrows d le_rfl
  rw [Nat.sub_self, Nat.pow_zero] at hdiff
  refine ⟨p + q, funext fun i => ?_⟩
  change acts ((List.range d).map fun t => ⟨1, 1, 2 ^ (d - t) - 1⟩) b i = _
  rcases Nat.even_or_odd' i with ⟨k, rfl | rfl⟩
  · rw [hhalves.even, trueFrom, trueFrom]
    exact decide_eq_decide.mpr (by omega)
  · rw [hhalves.odd, trueFrom, trueFrom]
    exact decide_eq_decide.mpr (by omega)

/-! ## 4. The network -/

/-- The layers that compare with ever larger strides. -/
def firstLayers (d : ℕ) : List Layer := (List.range d).map fun e => ⟨2 ^ e, 0, 2 ^ e⟩

/-- The layers of a stage. -/
def stageLayers (d stage : ℕ) : List Layer :=
  (List.range (stage + 1)).map fun t =>
    ⟨2 ^ d / 2 ^ (stage + 2), 1, 2 ^ d / 2 ^ (stage + 2) * ((2 ^ (stage + 1) - 1) / 2 ^ t)⟩

/-- The pairwise network of `2 ^ d` entries. -/
def pairwiseLayers (d : ℕ) : List Layer := firstLayers d ++ (List.range (d - 1)).flatMap (stageLayers d)

theorem firstLayers_succ (d : ℕ) : firstLayers (d + 1) = ⟨1, 0, 1⟩ :: (firstLayers d).map Layer.double := by
  rw [firstLayers, firstLayers, List.range_succ_eq_map, List.map_cons, List.map_map, List.map_map]
  congr 1
  refine List.map_congr_left fun e _ => ?_
  simp only [Function.comp, Layer.double, Nat.succ_eq_add_one, Nat.pow_succ, Nat.mul_comm 2]

theorem stageLayers_double {d stage : ℕ} (h : stage + 2 ≤ d) :
    stageLayers (d + 1) stage = (stageLayers d stage).map Layer.double := by
  have hgroup : 2 ^ (d + 1) / 2 ^ (stage + 2) = 2 * (2 ^ d / 2 ^ (stage + 2)) := by
    rw [Nat.pow_succ, Nat.mul_comm, Nat.mul_div_assoc _ (Nat.pow_dvd_pow 2 h)]
  rw [stageLayers, stageLayers, List.map_map]
  refine List.map_congr_left fun t _ => ?_
  simp only [Function.comp, Layer.double, hgroup, Nat.mul_assoc]

theorem two_pow_sub_one_div {n t : ℕ} (h : t ≤ n) : (2 ^ n - 1) / 2 ^ t = 2 ^ (n - t) - 1 := by
  obtain ⟨d, rfl⟩ := Nat.exists_eq_add_of_le h
  have ht := Nat.two_pow_pos t
  have hd := Nat.two_pow_pos d
  rw [Nat.add_sub_cancel_left, Nat.pow_add]
  refine Nat.div_eq_of_lt_le ?_ ?_
  · rw [Nat.sub_mul, Nat.one_mul, Nat.mul_comm (2 ^ d)]
    omega
  · rw [Nat.sub_add_cancel hd, Nat.mul_comm (2 ^ d)]
    have := Nat.mul_pos ht hd
    omega

theorem stageLayers_last (d : ℕ) : stageLayers (d + 2) d = lastLayers (d + 1) := by
  have hgroup : 2 ^ (d + 2) / 2 ^ (d + 2) = 1 := Nat.div_self (Nat.two_pow_pos _)
  refine List.map_congr_left fun t ht => ?_
  rw [hgroup, Nat.one_mul, two_pow_sub_one_div (List.mem_range.mp ht).le]

/-- **The network is made of two of half the size**, behind the first layer. -/
theorem pairwiseLayers_succ (d : ℕ) :
    pairwiseLayers (d + 1) = ⟨1, 0, 1⟩ :: ((pairwiseLayers d).map Layer.double ++ lastLayers d) := by
  have hstages : (List.range d).flatMap (stageLayers (d + 1)) =
      ((List.range (d - 1)).flatMap (stageLayers d)).map Layer.double ++ lastLayers d := by
    cases d with
    | zero => rfl
    | succ d =>
      rw [List.range_succ, List.flatMap_append, List.flatMap_singleton, stageLayers_last, Nat.add_sub_cancel,
        List.map_flatMap]
      congr 1
      rw [List.flatMap_def, List.flatMap_def]
      congr 1
      exact List.map_congr_left fun stage hstage => stageLayers_double (by have := List.mem_range.mp hstage; omega)
  rw [pairwiseLayers, pairwiseLayers, firstLayers_succ, Nat.add_sub_cancel, hstages, List.map_append, List.cons_append,
    List.append_assoc]

/-- **The pairwise network sorts.** -/
theorem acts_pairwiseLayers : ∀ {d : ℕ} {b : ℕ → Bool}, (∀ i, 2 ^ d ≤ i → b i = true) →
    ∃ z, acts (pairwiseLayers d) b = trueFrom z
  | 0, b, htrue => by
    refine ⟨if b 0 then 0 else 1, funext fun i => ?_⟩
    change b i = _
    cases i with
    | zero => cases b 0 <;> rfl
    | succ i =>
      rw [htrue (i + 1) (Nat.le_add_left 1 i)]
      cases b 0 <;> simp [trueFrom]
  | d + 1, b, htrue => by
    rw [pairwiseLayers_succ]
    change ∃ z, acts ((pairwiseLayers d).map Layer.double ++ lastLayers d) (Layer.act ⟨1, 0, 1⟩ b) = trueFrom z
    rw [acts_append]
    have hpow : 2 ^ (d + 1) = 2 * 2 ^ d := by rw [Nat.pow_succ, Nat.mul_comm]
    have htrue' := Layer.act_true (L := ⟨1, 0, 1⟩) htrue
    obtain ⟨p, hp⟩ := acts_pairwiseLayers (d := d) (b := fun k => Layer.act ⟨1, 0, 1⟩ b (2 * k))
      fun k hk => htrue' _ (by omega)
    obtain ⟨q, hq⟩ := acts_pairwiseLayers (d := d) (b := fun k => Layer.act ⟨1, 0, 1⟩ b (2 * k + 1))
      fun k hk => htrue' _ (by omega)
    have hhalves : Halves (acts ((pairwiseLayers d).map Layer.double) (Layer.act ⟨1, 0, 1⟩ b)) p q :=
      ⟨fun k => (congrFun (acts_double_even _ _) k).trans (congrFun hp k),
        fun k => (congrFun (acts_double_odd _ _) k).trans (congrFun hq k)⟩
    -- neighbours are in order, and stay so
    have hneighbours : ∀ k, Layer.act ⟨1, 0, 1⟩ b (2 * k) = true → Layer.act ⟨1, 0, 1⟩ b (2 * k + 1) = true := by
      intro k hk
      rw [Layer.act, if_pos (by dsimp only; rw [Nat.div_one]; omega), Bool.and_eq_true] at hk
      rw [Layer.act, if_neg (by dsimp only; rw [Nat.div_one]; omega), if_pos (Nat.le_add_left 1 _), hk.2, Bool.or_true]
    have hle : q ≤ p := by
      have h := @acts_mono (pairwiseLayers d) _ _ hneighbours p
      rw [hp, hq] at h
      exact of_decide_eq_true (h (decide_eq_true le_rfl))
    have hmost : p ≤ 2 ^ d := by
      have h := @acts_true (2 ^ d) (pairwiseLayers d) (fun k => Layer.act ⟨1, 0, 1⟩ b (2 * k))
        (fun k hk => htrue' _ (by omega)) (2 ^ d) le_rfl
      rw [hp] at h
      exact of_decide_eq_true h
    exact hhalves.lastLayers hle (by omega)

end Cccl.PairwiseNetwork
