/-
# Runs of equal labels

The positions of an interval carry labels.  A list of runs describes the labels of the interval if the
runs follow each other without gaps, and each has the label of all its positions (`Covers`).  Adjacent
runs with one label can be merged (`merge_covers`, `merge_isChain`); the starts of the merged runs are
then the places where the label changes (`Covers.boundary`).

How often a label occurs is counted by `countIn`.  A histogram of an interval lists the labels that occur
there, each with its count (`IsHist`), and is kept as the interval grows run by run (`IsHist.add`).

If the positions are cut into blocks of one size, each block can be given to a label that occurs most
often in it.  A census lists these labels, with the number of positions that have another one
(`IsCensus`); it is made block by block (`IsCensus.snoc`).  If labels change at the borders of blocks
only, each block gets its own label, and no position is misplaced (`IsCensus.of_aligned`).
-/
import Mathlib.Algebra.BigOperators.Group.List.Basic
import Mathlib.Algebra.Ring.Nat
import Mathlib.Data.List.Chain
import Mathlib.Data.List.Nodup
import Mathlib.Order.Nat

namespace Cccl

variable {α σ : Type*}

/-! ## 1. Runs -/

/-- Some positions with one label. -/
structure Run (α : Type*) where
  start : ℕ
  len : ℕ
  label : α
  deriving DecidableEq

/-- The runs describe the labels from `a` up to `b`. -/
def Covers (f : ℕ → α) : ℕ → List (Run α) → ℕ → Prop
  | a, [], b => a = b
  | a, r :: rs, b =>
    r.start = a ∧ 0 < r.len ∧ (∀ i, a ≤ i → i < a + r.len → f i = r.label) ∧ Covers f (a + r.len) rs b

theorem Covers.append {f : ℕ → α} : ∀ {rs rs' : List (Run α)} {a b c : ℕ}, Covers f a rs b →
    Covers f b rs' c → Covers f a (rs ++ rs') c
  | [], rs', a, b, c, h, h' => by
    obtain rfl : a = b := h
    exact h'
  | r :: rs, rs', a, b, c, ⟨hstart, hlen, hlabel, h⟩, h' => ⟨hstart, hlen, hlabel, h.append h'⟩

theorem Covers.le {f : ℕ → α} : ∀ {rs : List (Run α)} {a b : ℕ}, Covers f a rs b → a ≤ b
  | [], a, b, h => by
    obtain rfl : a = b := h
    exact Nat.le_refl a
  | r :: rs, a, b, ⟨_, _, _, h⟩ => (Nat.le_add_right a r.len).trans h.le

theorem Covers.congr {f g : ℕ → α} : ∀ {rs : List (Run α)} {a b : ℕ}, Covers f a rs b →
    (∀ i, a ≤ i → i < b → f i = g i) → Covers g a rs b
  | [], a, b, h, _ => h
  | r :: rs, a, b, ⟨hstart, hlen, hlabel, h⟩, heq => by
    have hle := h.le
    refine ⟨hstart, hlen, fun i hi hlt => ?_, h.congr fun i hi hlt => heq i (by omega) hlt⟩
    rw [← heq i hi (by omega)]
    exact hlabel i hi hlt

/-! ## 2. Merging -/

section Merge

variable [DecidableEq α]

/-- Runs that continue a pending one are merged into it. -/
def mergeInto : Run α → List (Run α) → List (Run α)
  | p, [] => [p]
  | p, r :: rs =>
    if p.label = r.label ∧ p.start + p.len = r.start then
      mergeInto ⟨p.start, p.len + r.len, p.label⟩ rs
    else p :: mergeInto r rs

def merge : List (Run α) → List (Run α)
  | [] => []
  | r :: rs => mergeInto r rs

omit [DecidableEq α] in
theorem Covers.join {f : ℕ → α} {p r : Run α} {rs : List (Run α)} {a b : ℕ}
    (h : Covers f a (p :: r :: rs) b) (hlabel : p.label = r.label) :
    Covers f a (⟨p.start, p.len + r.len, p.label⟩ :: rs) b := by
  obtain ⟨hstart, hlen, hfirst, hstart', hlen', hsecond, hrest⟩ := h
  refine ⟨hstart, Nat.add_pos_left hlen _, fun i hle hlt => ?_, ?_⟩
  · rcases Nat.lt_or_ge i (a + p.len) with hi | hi
    · exact hfirst i hle hi
    · rw [hlabel]
      refine hsecond i hi ?_
      rw [Nat.add_assoc]
      exact hlt
  · simp only
    rw [← Nat.add_assoc]
    exact hrest

theorem mergeInto_covers {f : ℕ → α} : ∀ {rs : List (Run α)} {p : Run α} {a b : ℕ},
    Covers f a (p :: rs) b → Covers f a (mergeInto p rs) b
  | [], p, a, b, h => h
  | r :: rs, p, a, b, h => by
    unfold mergeInto
    split
    · rename_i hsame
      exact mergeInto_covers (h.join hsame.1)
    · exact ⟨h.1, h.2.1, h.2.2.1, mergeInto_covers h.2.2.2⟩

theorem merge_covers {f : ℕ → α} {a b : ℕ} : ∀ {rs : List (Run α)}, Covers f a rs b →
    Covers f a (merge rs) b
  | [], h => h
  | _ :: _, h => mergeInto_covers h

theorem mergeInto_head : ∀ (rs : List (Run α)) (p : Run α), ∃ q qs, mergeInto p rs = q :: qs ∧
    q.label = p.label
  | [], p => ⟨p, [], rfl, rfl⟩
  | r :: rs, p => by
    unfold mergeInto
    split
    · exact mergeInto_head rs ⟨p.start, p.len + r.len, p.label⟩
    · exact ⟨p, _, rfl, rfl⟩

theorem mergeInto_isChain {f : ℕ → α} : ∀ {rs : List (Run α)} {p : Run α} {a b : ℕ},
    Covers f a (p :: rs) b → (mergeInto p rs).IsChain fun r r' => r.label ≠ r'.label
  | [], p, _, _, _ => .singleton p
  | r :: rs, p, a, b, h => by
    unfold mergeInto
    split
    · rename_i hsame
      exact mergeInto_isChain (h.join hsame.1)
    · rename_i hdiffer
      have hrest := mergeInto_isChain h.2.2.2
      obtain ⟨q, qs, hq, hlabel⟩ := mergeInto_head rs r
      rw [hq] at hrest ⊢
      refine List.isChain_cons_cons.mpr ⟨?_, hrest⟩
      rw [hlabel]
      -- the runs follow each other, so that the labels differ
      obtain ⟨hstart, -, -, hstart', -⟩ := h
      exact fun heq => hdiffer ⟨heq, by omega⟩

/-- **Merged runs cover what was covered, and neighbours differ.** -/
theorem merge_isChain {f : ℕ → α} {a b : ℕ} : ∀ {rs : List (Run α)}, Covers f a rs b →
    (merge rs).IsChain fun r r' => r.label ≠ r'.label
  | [], _ => .nil
  | _ :: _, h => mergeInto_isChain h

end Merge

/-! ## 3. Boundaries -/

theorem Covers.le_start {f : ℕ → α} : ∀ {rs : List (Run α)} {a b : ℕ}, Covers f a rs b →
    ∀ r ∈ rs, a ≤ r.start ∧ r.start + r.len ≤ b
  | r :: rs, a, b, ⟨hstart, _, _, h⟩, r', hr' => by
    rcases List.mem_cons.mp hr' with rfl | hr'
    · exact ⟨hstart.ge, hstart ▸ h.le⟩
    · obtain ⟨hle, hend⟩ := h.le_start r' hr'
      exact ⟨by omega, hend⟩

theorem Covers.label {f : ℕ → α} : ∀ {rs : List (Run α)} {a b : ℕ}, Covers f a rs b →
    ∀ r ∈ rs, 0 < r.len ∧ ∀ i, r.start ≤ i → i < r.start + r.len → f i = r.label
  | r :: rs, a, b, ⟨hstart, hlen, hlabel, h⟩, r', hr' => by
    rcases List.mem_cons.mp hr' with rfl | hr'
    · rw [hstart]
      exact ⟨hlen, hlabel⟩
    · exact h.label r' hr'

theorem Covers.start_of_ne {f : ℕ → α} {i : ℕ} : ∀ {rs : List (Run α)} {a b : ℕ},
    Covers f a rs b → a < i → i < b → f (i - 1) ≠ f i → ∃ r ∈ rs, r.start = i
  | [], a, b, h, hai, hib, _ => by
    obtain rfl : a = b := h
    omega
  | r :: rs, a, b, ⟨hstart, hlen, hlabel, h⟩, hai, hib, hne => by
    rcases lt_trichotomy i (a + r.len) with hlt | heq | hgt
    · exact absurd ((hlabel (i - 1) (by omega) (by omega)).trans (hlabel i (by omega) hlt).symm) hne
    · cases rs with
      | nil =>
        obtain rfl : a + r.len = b := h
        omega
      | cons r' rs => exact ⟨r', by simp, h.1.trans heq.symm⟩
    · obtain ⟨r', hr', hi⟩ := h.start_of_ne hgt hib hne
      exact ⟨r', List.mem_cons_of_mem _ hr', hi⟩

/-- **Where a run starts, the label changes**, if neighbours differ. -/
theorem Covers.ne_of_start {f : ℕ → α} : ∀ {rs : List (Run α)} {a b : ℕ}, Covers f a rs b →
    (rs.IsChain fun r r' => r.label ≠ r'.label) → ∀ r ∈ rs, a < r.start →
      f (r.start - 1) ≠ f r.start
  | r₀ :: rs, a, b, ⟨hstart, hlen, hlabel, h⟩, hchain, r, hr, hlt => by
    rcases List.mem_cons.mp hr with rfl | hr'
    · omega
    · rcases Nat.eq_or_lt_of_le (h.le_start r hr').1 with heq | hgt
      · -- it is the second run
        cases rs with
        | nil => exact absurd hr' List.not_mem_nil
        | cons r₁ rs =>
          obtain ⟨hne, -⟩ := List.isChain_cons_cons.mp hchain
          have h₀ := hlabel (r.start - 1) (by omega) (by omega)
          have h₁ := h.2.2.1 r.start (by omega) (by have := h.2.1; omega)
          rwa [h₀, h₁]
      · exact h.ne_of_start (hchain.tail) r hr' hgt

/-! ## 4. Going through the runs -/

/-- A callback gets one run after the other, until it asks to stop. -/
def foldRuns (emit : Run α → σ → Bool × σ) : List (Run α) → σ → Bool × σ
  | [], s => (true, s)
  | r :: rs, s =>
    match emit r s with
    | (true, s') => foldRuns emit rs s'
    | (false, s') => (false, s')

theorem foldRuns_true {emit : Run α → σ → Bool × σ} {next : σ → Run α → σ}
    (h : ∀ r s, emit r s = (true, next s r)) :
    ∀ (rs : List (Run α)) (s : σ), foldRuns emit rs s = (true, rs.foldl next s)
  | [], _ => rfl
  | r :: rs, s => by rw [foldRuns, h, List.foldl_cons, ← foldRuns_true h rs]

/-! ## 5. Counting -/

section Count

variable [DecidableEq α] {f : ℕ → α}

/-- How many positions from `lo` up to `hi` have a label. -/
def countIn (f : ℕ → α) (lo hi : ℕ) (o : α) : ℕ :=
  (List.range' lo (hi - lo)).countP fun i => f i = o

attribute [local simp] countIn in
theorem countIn_self (f : ℕ → α) (lo : ℕ) (o : α) : countIn f lo lo o = 0 := by
  rw [countIn, Nat.sub_self]
  rfl

theorem countIn_add {lo mid hi : ℕ} (h : lo ≤ mid) (h' : mid ≤ hi) (o : α) :
    countIn f lo hi o = countIn f lo mid o + countIn f mid hi o := by
  obtain ⟨k, rfl⟩ := Nat.exists_eq_add_of_le h
  obtain ⟨m, rfl⟩ := Nat.exists_eq_add_of_le h'
  have hfirst : lo + k - lo = k := by omega
  have hsecond : lo + k + m - (lo + k) = m := by omega
  have hall : lo + k + m - lo = k + m := by omega
  rw [countIn, countIn, countIn, hfirst, hsecond, hall, ← List.range'_append_1, List.countP_append]

theorem mem_interval {lo hi i : ℕ} : i ∈ List.range' lo (hi - lo) ↔ lo ≤ i ∧ i < hi := by
  rw [List.mem_range'_1]
  omega

theorem countIn_of_label {lo hi : ℕ} {o : α} (h : ∀ i, lo ≤ i → i < hi → f i = o) (o' : α) :
    countIn f lo hi o' = if o' = o then hi - lo else 0 := by
  unfold countIn
  split
  · rename_i heq
    rw [List.countP_eq_length.mpr, List.length_range']
    intro i hi'
    obtain ⟨hle, hlt⟩ := mem_interval.mp hi'
    rw [decide_eq_true_eq, h i hle hlt, heq]
  · rename_i hne
    rw [List.countP_eq_zero]
    intro i hi'
    obtain ⟨hle, hlt⟩ := mem_interval.mp hi'
    rw [decide_eq_true_eq, h i hle hlt]
    exact fun heq => hne heq.symm

theorem countIn_pos {lo hi : ℕ} {o : α} :
    0 < countIn f lo hi o ↔ ∃ i, lo ≤ i ∧ i < hi ∧ f i = o := by
  rw [countIn, List.countP_pos_iff]
  constructor
  · rintro ⟨i, hi', heq⟩
    obtain ⟨hle, hlt⟩ := mem_interval.mp hi'
    exact ⟨i, hle, hlt, by simpa using heq⟩
  · rintro ⟨i, hle, hlt, heq⟩
    exact ⟨i, mem_interval.mpr ⟨hle, hlt⟩, by simpa using heq⟩

/-! ## 6. Histograms -/

/-- One more interval of a label is counted. -/
def addTo (o : α) (n : ℕ) : List (α × ℕ) → List (α × ℕ)
  | [] => [(o, n)]
  | e :: hist => if e.1 = o then (e.1, e.2 + n) :: hist else e :: addTo o n hist

/-- The labels that occur from `lo` up to `hi`, with their counts. -/
structure IsHist (f : ℕ → α) (lo hi : ℕ) (hist : List (α × ℕ)) : Prop where
  nodup : (hist.map Prod.fst).Nodup
  count : ∀ e ∈ hist, e.2 = countIn f lo hi e.1
  complete : ∀ o, 0 < countIn f lo hi o → o ∈ hist.map Prod.fst
  sum : (hist.map Prod.snd).sum = hi - lo

theorem IsHist.nil (f : ℕ → α) (lo : ℕ) : IsHist f lo lo [] := by
  refine ⟨List.nodup_nil, by simp, fun o ho => ?_, by simp⟩
  rw [countIn_self] at ho
  exact absurd ho (Nat.lt_irrefl 0)

theorem addTo_sum (o : α) (n : ℕ) : ∀ hist : List (α × ℕ),
    ((addTo o n hist).map Prod.snd).sum = (hist.map Prod.snd).sum + n
  | [] => by simp [addTo]
  | e :: hist => by
    unfold addTo
    split
    · simp only [List.map_cons, List.sum_cons]
      omega
    · simp only [List.map_cons, List.sum_cons, addTo_sum o n hist]
      omega

theorem mem_keys_addTo (o o' : α) (n : ℕ) : ∀ hist : List (α × ℕ),
    o' ∈ (addTo o n hist).map Prod.fst ↔ o' = o ∨ o' ∈ hist.map Prod.fst
  | [] => by simp [addTo]
  | e :: hist => by
    unfold addTo
    split
    · rename_i heq
      simp only [List.map_cons, List.mem_cons, heq]
      tauto
    · simp only [List.map_cons, List.mem_cons, mem_keys_addTo o o' n hist]
      tauto

theorem addTo_nodup (o : α) (n : ℕ) : ∀ {hist : List (α × ℕ)}, (hist.map Prod.fst).Nodup →
    ((addTo o n hist).map Prod.fst).Nodup
  | [], _ => by simp [addTo]
  | e :: hist, h => by
    rw [List.map_cons, List.nodup_cons] at h
    unfold addTo
    split
    · rw [List.map_cons, List.nodup_cons]
      exact h
    · rename_i hne
      rw [List.map_cons, List.nodup_cons, mem_keys_addTo]
      exact ⟨by tauto, addTo_nodup o n h.2⟩

theorem mem_addTo {o : α} {n : ℕ} : ∀ {hist : List (α × ℕ)} {e : α × ℕ},
    (hist.map Prod.fst).Nodup → e ∈ addTo o n hist →
      (e.1 ≠ o ∧ e ∈ hist) ∨
        e.1 = o ∧ ((∃ m, (o, m) ∈ hist ∧ e.2 = m + n) ∨ o ∉ hist.map Prod.fst ∧ e.2 = n)
  | [], e, _, he => by
    obtain rfl : e = (o, n) := by simpa [addTo] using he
    exact Or.inr ⟨rfl, Or.inr ⟨by simp, rfl⟩⟩
  | d :: hist, e, hnodup, he => by
    rw [List.map_cons, List.nodup_cons] at hnodup
    unfold addTo at he
    split at he
    · rename_i heq
      rcases List.mem_cons.mp he with rfl | he
      · exact Or.inr ⟨heq, Or.inl ⟨d.2, by rw [← heq]; exact List.mem_cons_self, rfl⟩⟩
      · refine Or.inl ⟨fun hkey => hnodup.1 ?_, List.mem_cons_of_mem _ he⟩
        rw [heq, ← hkey]
        exact List.mem_map_of_mem he
    · rename_i hne
      rcases List.mem_cons.mp he with rfl | he
      · exact Or.inl ⟨hne, List.mem_cons_self⟩
      · rcases mem_addTo hnodup.2 he with ⟨hkey, hmem⟩ | ⟨hkey, ⟨m, hmem, hm⟩ | ⟨hfresh, hm⟩⟩
        · exact Or.inl ⟨hkey, List.mem_cons_of_mem _ hmem⟩
        · exact Or.inr ⟨hkey, Or.inl ⟨m, List.mem_cons_of_mem _ hmem, hm⟩⟩
        · refine Or.inr ⟨hkey, Or.inr ⟨?_, hm⟩⟩
          rw [List.map_cons, List.mem_cons, not_or]
          exact ⟨fun heq => hne heq.symm, hfresh⟩

/-- **A histogram is kept as the interval grows** by positions with one label. -/
theorem IsHist.add {lo mid hi : ℕ} {hist : List (α × ℕ)} (h : IsHist f lo mid hist)
    (hle : lo ≤ mid) (hle' : mid ≤ hi) {o : α} (ho : ∀ i, mid ≤ i → i < hi → f i = o) :
    IsHist f lo hi (addTo o (hi - mid) hist) := by
  have hcount : ∀ o', countIn f lo hi o' =
      countIn f lo mid o' + if o' = o then hi - mid else 0 := fun o' => by
    rw [countIn_add hle hle', countIn_of_label ho]
  refine ⟨addTo_nodup o _ h.nodup, fun e he => ?_, fun o' ho' => ?_, ?_⟩
  · rw [hcount]
    rcases mem_addTo h.nodup he with ⟨hkey, hmem⟩ | ⟨rfl, ⟨m, hmem, hm⟩ | ⟨hfresh, hm⟩⟩
    · rw [if_neg hkey, h.count e hmem, Nat.add_zero]
    · rw [if_pos rfl, hm, ← h.count _ hmem]
    · have hzero : countIn f lo mid e.1 = 0 :=
        Nat.eq_zero_of_not_pos fun hpos => hfresh (h.complete _ hpos)
      rw [if_pos rfl, hm, hzero, Nat.zero_add]
  · rw [mem_keys_addTo]
    rw [hcount] at ho'
    rcases eq_or_ne o' o with rfl | hne
    · exact Or.inl rfl
    · rw [if_neg hne, Nat.add_zero] at ho'
      exact Or.inr (h.complete o' ho')
  · rw [addTo_sum, h.sum]
    omega

/-! ## 7. Blocks -/

/-- A label that occurs most often. -/
def IsMajority (f : ℕ → α) (lo hi : ℕ) (o : α) : Prop :=
  ∀ o', countIn f lo hi o' ≤ countIn f lo hi o

/-- The positions whose label is not that of their block. -/
def misplaced (f : ℕ → α) (block : ℕ) (owners : List α) (total : ℕ) : ℕ :=
  (List.range total).countP fun i => owners[i / block]? ≠ some (f i)

/-- One label for each block, one that occurs most often there, and the number of positions that have
another one. -/
structure IsCensus (f : ℕ → α) (block total : ℕ) (owners : List α) (wrong : ℕ) : Prop where
  length_eq : owners.length = (total + block - 1) / block
  majority : ∀ k o, owners[k]? = some o →
    IsMajority f (k * block) (min ((k + 1) * block) total) o
  wrong_eq : wrong = misplaced f block owners total

theorem IsCensus.zero (f : ℕ → α) {block : ℕ} (hblock : 0 < block) : IsCensus f block 0 [] 0 := by
  refine ⟨?_, by simp, rfl⟩
  rw [Nat.zero_add, Nat.div_eq_of_lt (by omega)]
  rfl

theorem div_of_mem_block {k block i : ℕ} (hle : k * block ≤ i) (hlt : i < (k + 1) * block) :
    i / block = k :=
  Nat.div_eq_of_lt_le hle hlt

theorem countP_ne (lo hi : ℕ) (o : α) :
    (List.range' lo (hi - lo)).countP (fun i => f i ≠ o) = hi - lo - countIn f lo hi o := by
  have hsplit := List.length_eq_countP_add_countP (fun i => decide (f i = o))
    (l := List.range' lo (hi - lo))
  rw [List.length_range'] at hsplit
  simp only [decide_eq_true_eq] at hsplit
  simp only [countIn, ne_eq]
  omega

theorem misplaced_snoc {block hi : ℕ} {owners : List α} (hle : owners.length * block ≤ hi)
    (hle' : hi ≤ (owners.length + 1) * block) (o : α) :
    misplaced f block (owners ++ [o]) hi = misplaced f block owners (owners.length * block) +
      (hi - owners.length * block - countIn f (owners.length * block) hi o) := by
  have hrange : List.range hi = List.range (owners.length * block) ++
      List.range' (owners.length * block) (hi - owners.length * block) := by
    obtain ⟨n, rfl⟩ := Nat.exists_eq_add_of_le hle
    rw [Nat.add_sub_cancel_left, List.range_add, List.range'_eq_map_range]
  rw [misplaced, hrange, List.countP_append, misplaced, ← countP_ne]
  congr 1
  · refine List.countP_congr fun i hi => ?_
    have hlt := Nat.div_lt_of_lt_mul ((List.mem_range.mp hi).trans_eq (Nat.mul_comm _ _))
    rw [List.getElem?_append_left hlt]
  · refine List.countP_congr fun i hi => ?_
    obtain ⟨hge, hlt⟩ := mem_interval.mp hi
    rw [div_of_mem_block hge (by omega), List.getElem?_append_right (Nat.le_refl _), Nat.sub_self]
    simp only [List.getElem?_cons_zero, ne_eq, Option.some.injEq, eq_comm]

/-- **One more block.**  It may be shorter than the other ones. -/
theorem IsCensus.snoc {block hi wrong : ℕ} {owners : List α} {o : α}
    (h : IsCensus f block (owners.length * block) owners wrong)
    (hlt : owners.length * block < hi) (hle : hi ≤ (owners.length + 1) * block)
    (ho : IsMajority f (owners.length * block) hi o) :
    IsCensus f block hi (owners ++ [o])
      (wrong + (hi - owners.length * block - countIn f (owners.length * block) hi o)) := by
  have hexpand : (owners.length + 1) * block = owners.length * block + block := Nat.add_one_mul _ _
  refine ⟨?_, fun k o' hk => ?_, ?_⟩
  · rw [List.length_append, List.length_singleton]
    refine (Nat.div_eq_of_lt_le (by omega) ?_).symm
    rw [Nat.add_one_mul]
    omega
  · rcases Nat.lt_or_ge k owners.length with hk' | hk'
    · have hblock : (k + 1) * block ≤ owners.length * block := Nat.mul_le_mul_right _ hk'
      rw [List.getElem?_append_left hk'] at hk
      have := h.majority k o' hk
      rw [Nat.min_eq_left hblock] at this
      rwa [Nat.min_eq_left (by omega)]
    · rw [List.getElem?_append_right hk'] at hk
      obtain ⟨hk0, rfl⟩ : k - owners.length = 0 ∧ o = o' := by simpa [List.getElem?_singleton] using hk
      obtain rfl : k = owners.length := by omega
      rwa [Nat.min_eq_right hle]
  · rw [misplaced_snoc hlt.le hle, ← h.wrong_eq]

/-! ## 8. Labels that change at the borders of blocks -/

/-- Labels change at multiples of the size of a block only. -/
def Aligned (f : ℕ → α) (block total : ℕ) : Prop :=
  ∀ i, 0 < i → i < total → f (i - 1) ≠ f i → block ∣ i

omit [DecidableEq α] in
theorem Aligned.eq_first {block total k : ℕ} (h : Aligned f block total) :
    ∀ d, d < block → k * block + d < total → f (k * block + d) = f (k * block)
  | 0, _, _ => rfl
  | d + 1, hd, htotal => by
    rw [← h.eq_first d (by omega) (by omega)]
    refine Classical.byContradiction fun hne => ?_
    have hdvd := h (k * block + (d + 1)) (by omega) htotal fun heq => hne heq.symm
    have := Nat.le_of_dvd (Nat.succ_pos d) ((Nat.dvd_add_right (Nat.dvd_mul_left block k)).mp hdvd)
    omega

omit [DecidableEq α] in
theorem Aligned.eq_block {block total i : ℕ} (h : Aligned f block total) (hblock : 0 < block)
    (hi : i < total) : f i = f (i / block * block) := by
  have hsplit := Nat.div_add_mod' i block
  have := h.eq_first (k := i / block) (i % block) (Nat.mod_lt i hblock) (by omega)
  rwa [hsplit] at this

theorem lt_blocks_iff {block total k : ℕ} (hblock : 0 < block) :
    k < (total + block - 1) / block ↔ k * block < total := by
  rw [Nat.lt_iff_add_one_le, Nat.le_div_iff_mul_le hblock, Nat.add_one_mul]
  omega

theorem blocks_of_mul {block : ℕ} (hblock : 0 < block) (q : ℕ) :
    (block * q + block - 1) / block = q := by
  have hsum : block * q + block - 1 = block * q + (block - 1) := by omega
  rw [hsum, Nat.mul_add_div hblock, Nat.div_eq_of_lt (by omega), Nat.add_zero]

/-- **Each block has its own label**, and no position is misplaced. -/
theorem IsCensus.of_aligned {block total wrong : ℕ} {owners : List α}
    (h : IsCensus f block total owners wrong) (hblock : 0 < block) (haligned : Aligned f block total) :
    (∀ k < owners.length, owners[k]? = some (f (k * block))) ∧ wrong = 0 := by
  have howners : ∀ k < owners.length, owners[k]? = some (f (k * block)) := by
    intro k hk
    have hfirst : k * block < total := by
      rw [h.length_eq] at hk
      exact (lt_blocks_iff hblock).mp hk
    obtain ⟨o, ho⟩ : ∃ o, owners[k]? = some o := ⟨_, List.getElem?_eq_getElem hk⟩
    -- the first label of the block occurs, so that the most frequent one does
    have hend : k * block < min ((k + 1) * block) total := by
      rw [Nat.add_one_mul]
      omega
    have hcount := countIn_pos (f := f).mpr ⟨k * block, Nat.le_refl _, hend, rfl⟩
    obtain ⟨i, hle, hlt, hi⟩ := countIn_pos.mp (hcount.trans_le (h.majority k o ho _))
    have hblock' := haligned.eq_block hblock (i := i) (by omega)
    rw [div_of_mem_block hle (by omega), hi] at hblock'
    rw [ho, hblock']
  refine ⟨howners, ?_⟩
  rw [h.wrong_eq, misplaced, List.countP_eq_zero]
  intro i hi
  have htotal := List.mem_range.mp hi
  have hlt : i / block < owners.length := by
    rw [h.length_eq, lt_blocks_iff hblock]
    exact (Nat.div_mul_le_self i block).trans_lt htotal
  rw [howners _ hlt, ← haligned.eq_block hblock htotal]
  simp

omit [DecidableEq α] in
theorem Covers.aligned_iff {block total : ℕ} {rs : List (Run α)} (h : Covers f 0 rs total)
    (hchain : rs.IsChain fun r r' => r.label ≠ r'.label) :
    (∀ r ∈ rs, block ∣ r.start) ↔ Aligned f block total := by
  constructor
  · intro hstart i hpos htotal hne
    obtain ⟨r, hr, rfl⟩ := h.start_of_ne hpos htotal hne
    exact hstart r hr
  · intro haligned r hr
    rcases Nat.eq_zero_or_pos r.start with hzero | hpos
    · rw [hzero]
      exact Nat.dvd_zero block
    · have hlen := (h.label r hr).1
      have hend := (h.le_start r hr).2
      exact haligned r.start hpos (by omega) (h.ne_of_start hchain r hr hpos)

/-- A run as a run of blocks. -/
def Run.toBlocks (block : ℕ) (r : Run α) : Run α :=
  ⟨r.start / block, (r.len + block - 1) / block, r.label⟩

omit [DecidableEq α] in
/-- **Runs that start at blocks are runs of blocks.**  The last one may end within a block. -/
theorem Covers.toBlocks {block total : ℕ} (hblock : 0 < block) : ∀ {rs : List (Run α)} {a : ℕ},
    Covers f a rs total → block ∣ a → (∀ r ∈ rs, block ∣ r.start) →
    Covers (fun k => f (k * block)) (a / block) (rs.map (Run.toBlocks block))
      ((total + block - 1) / block)
  | [], a, h, hdvd, _ => by
    obtain rfl : a = total := h
    obtain ⟨q, rfl⟩ := hdvd
    rw [Nat.mul_div_cancel_left q hblock, blocks_of_mul hblock]
    exact rfl
  | r :: rs, a, ⟨hstart, hlen, hlabel, h⟩, hdvd, hall => by
    obtain ⟨q, rfl⟩ := hdvd
    have hblocks : (block * q + r.len + block - 1) / block = q + (r.len + block - 1) / block := by
      have hsum : block * q + r.len + block - 1 = block * q + (r.len + block - 1) := by omega
      rw [hsum, Nat.mul_add_div hblock]
    rw [List.map_cons, Nat.mul_div_cancel_left q hblock]
    refine ⟨?_, ?_, fun k hle hlt => ?_, ?_⟩
    · rw [Run.toBlocks, hstart, Nat.mul_div_cancel_left q hblock]
    · exact (lt_blocks_iff hblock).mpr (by omega)
    · -- the first position of the block is in the run
      rw [Run.toBlocks, ← hblocks, lt_blocks_iff hblock] at hlt
      refine hlabel (k * block) ?_ hlt
      rw [Nat.mul_comm]
      exact Nat.mul_le_mul_right block hle
    · rw [Run.toBlocks, ← hblocks]
      cases rs with
      | nil =>
        obtain rfl : block * q + r.len = total := h
        exact rfl
      | cons r' rs =>
        have hnext : block ∣ block * q + r.len := by
          rw [← h.1]
          exact hall r' (by simp)
        have hrest := h.toBlocks hblock hnext fun r'' hr'' => hall r'' (List.mem_cons_of_mem _ hr'')
        obtain ⟨q', hq'⟩ := hnext
        rw [hq', Nat.mul_div_cancel_left q' hblock] at hrest
        rwa [hq', blocks_of_mul hblock]

end Count

end Cccl
