/-
# What is asked of a pool

A request has a size and an alignment.  Requests that are too large, or aligned too much, are oversized; for
each other one there is a pool, the blocks of which are large enough and aligned as is asked (`InPool`).

The oversized blocks of a pool are cached or serve what the user has (`Served`), in whatever order either of
them is.
-/
import Cccl.Pool.Options
import Mathlib.Data.List.Perm.Basic

namespace Cccl.Pool

open Cmath

/-! ## 1. Requests -/

/-- What is asked of the resource. -/
structure Request where
  bytes : ℕ
  alignment : ℕ
  bytes_lt : bytes < 2 ^ 64
  alignment_lt : alignment < 2 ^ 64
  alignment_valid : isValidAlignment alignment = true

/-- A block that the user has, as it has been asked for. -/
structure Live where
  pointer : ℕ
  request : Request

/-- What the user has if an allocation has been answered. -/
def received (request : Request) (answer : Option ℕ) (live : List Live) : List Live :=
  match answer with
  | some p => ⟨p, request⟩ :: live
  | none => live

variable (O : PoolOptions)

/-- `m_smallest_block_log2` -/
def smallestBlockLog2 : ℕ := ceilIlog2 O.smallestBlockSize

/-- A request for which no pool is used. -/
def isOversized (bytes alignment : ℕ) : Prop :=
  max bytes O.smallestBlockSize > O.largestBlockSize ∨ alignment > O.alignment

instance (bytes alignment : ℕ) : Decidable (isOversized O bytes alignment) :=
  inferInstanceAs (Decidable (_ ∨ _))

/-- The size of the block that is taken for a request, at least. -/
def room (request : Request) : ℕ := max request.bytes O.smallestBlockSize

/-- The pool of the blocks for a request.  There is none if the request is oversized. -/
def poolOf (request : Request) : Option ℕ :=
  if isOversized O request.bytes request.alignment then none
  else some (ceilIlog2 (room O request) - smallestBlockLog2 O)

/-- The blocks of the user that come from a pool, or from none. -/
def liveIn (k : Option ℕ) (live : List Live) : List Live :=
  live.filter fun b => decide (poolOf O b.request = k)

/-! ## 2. The pool of a request -/

variable {O}

theorem liveIn_cons_self {k : Option ℕ} {b : Live} (h : poolOf O b.request = k) (live : List Live) :
    liveIn O k (b :: live) = b :: liveIn O k live := List.filter_cons_of_pos (by simpa using h)

theorem liveIn_cons_of_ne {k : Option ℕ} {b : Live} (h : poolOf O b.request ≠ k) (live : List Live) :
    liveIn O k (b :: live) = liveIn O k live := List.filter_cons_of_neg (by simpa using h)

theorem mem_liveIn {k : Option ℕ} {b : Live} {live : List Live} :
    b ∈ liveIn O k live ↔ b ∈ live ∧ poolOf O b.request = k := by
  simp [liveIn]

theorem isPowerOfTwo_of_valid {n : ℕ} (h : isValidAlignment n = true) : ∃ k, n = 2 ^ k := by
  rw [isValidAlignment, Bool.and_eq_true] at h
  exact isPowerOfTwo_iff.mp h.2

theorem dvd_of_valid {m n : ℕ} (hm : ∃ k, m = 2 ^ k) (hn : ∃ k, n = 2 ^ k) (hle : m ≤ n) : m ∣ n := by
  obtain ⟨i, rfl⟩ := hm
  obtain ⟨j, rfl⟩ := hn
  exact pow_dvd_pow 2 ((Nat.pow_le_pow_iff_right (by decide)).mp hle)

/-- **The pool of a request** is there, and its blocks are large enough and aligned as is asked. -/
structure InPool (O : PoolOptions) (request : Request) (i : ℕ) : Prop where
  lt : i < ceilIlog2 O.largestBlockSize - smallestBlockLog2 O + 1
  log2 : ceilIlog2 (room O request) = i + smallestBlockLog2 O
  alignment_le : request.alignment ≤ O.alignment
  alignment_ne : O.alignment ≠ 0
  smallest : O.smallestBlockSize ≤ 2 ^ (i + smallestBlockLog2 O)
  largest : 2 ^ (i + smallestBlockLog2 O) ≤ O.largestBlockSize
  room : room O request ≤ 2 ^ (i + smallestBlockLog2 O)

theorem inPool_of_poolOf (hvalid : O.Validated) {request : Request} {i : ℕ}
    (h : poolOf O request = some i) : InPool O request i := by
  have hsmallpos : 0 < O.smallestBlockSize := by
    obtain ⟨k, hk⟩ := hvalid.smallest
    rw [hk]
    exact Nat.two_pow_pos k
  have hapos := isPowerOfTwo_of_valid request.alignment_valid
  rw [poolOf] at h
  split at h
  · exact absurd h (by simp)
  rename_i hpooled
  rw [isOversized, not_or, not_lt, not_lt] at hpooled
  have hroom : room O request ≤ O.largestBlockSize := hpooled.1
  have hle : O.smallestBlockSize ≤ room O request := Nat.le_max_right _ _
  have hsmall : smallestBlockLog2 O ≤ ceilIlog2 (room O request) := ceilIlog2_mono hsmallpos hle
  have hlarge : ceilIlog2 (room O request) ≤ ceilIlog2 O.largestBlockSize :=
    ceilIlog2_mono (hsmallpos.trans_le hle) hroom
  have hi : ceilIlog2 (room O request) = i + smallestBlockLog2 O := by
    have := Option.some_inj.mp h
    omega
  refine ⟨by omega, hi, hpooled.2, ?_, ?_, ?_, ?_⟩
  · obtain ⟨k, hk⟩ := hapos
    have := Nat.two_pow_pos k
    omega
  · rw [← hi]
    exact hle.trans (le_two_pow_ceilIlog2 _)
  · obtain ⟨k, hk⟩ := hvalid.largest
    rw [hk, ceilIlog2_two_pow] at hlarge
    rw [← hi, hk]
    exact Nat.pow_le_pow_right (by decide) hlarge
  · rw [← hi]
    exact le_two_pow_ceilIlog2 _

/-- What is said of all pools is said again if it holds of the one that has been changed. -/
theorem forall_set {β : Type} {pools : List β} {j : ℕ} {bucket' : β} {P Q : ℕ → β → Prop}
    (h : ∀ i bucket, pools[i]? = some bucket → P i bucket) (hother : ∀ i bucket, i ≠ j → P i bucket →
      Q i bucket) (hj : Q j bucket') :
    ∀ i bucket, (pools.set j bucket')[i]? = some bucket → Q i bucket := by
  intro i bucket hi
  rcases eq_or_ne i j with rfl | hne
  · rw [List.getElem?_set_self'] at hi
    obtain ⟨_, -, rfl⟩ := Option.map_eq_some_iff.mp hi
    exact hj
  · rw [List.getElem?_set_ne hne.symm] at hi
    exact hother i bucket hne (h i bucket hi)

theorem le_room (O : PoolOptions) (request : Request) : request.bytes ≤ room O request :=
  Nat.le_max_left _ _

/-! ## 3. Oversized blocks -/

section Served

variable {δ : Type} {serves : δ → Live → Prop} {all cached : List δ} {live : List Live} {d : δ} {b : Live}

/-- The oversized blocks are cached or in the hands of the user. -/
def Served (O : PoolOptions) (serves : δ → Live → Prop) (all cached : List δ) (live : List Live) : Prop :=
  ∃ pairs : List (δ × Live), all.Perm (pairs.map Prod.fst ++ cached) ∧
    (liveIn O none live).Perm (pairs.map Prod.snd) ∧ ∀ x ∈ pairs, serves x.1 x.2

theorem Served.nil : Served O serves [] [] [] :=
  ⟨[], List.Perm.refl _, List.Perm.refl _, fun _ hx => absurd hx List.not_mem_nil⟩

theorem Served.cached_subset (h : Served O serves all cached live) (hd : d ∈ cached) : d ∈ all := by
  obtain ⟨pairs, hfst, -⟩ := h
  exact hfst.mem_iff.mpr (List.mem_append_right _ hd)

theorem Served.length_le (h : Served O serves all cached live) : cached.length ≤ all.length := by
  obtain ⟨pairs, hfst, -⟩ := h
  rw [hfst.length_eq, List.length_append]
  exact Nat.le_add_left _ _

theorem Served.exists_serves (h : Served O serves all cached live) (hb : b ∈ live)
    (hpool : poolOf O b.request = none) : ∃ d ∈ all, serves d b := by
  obtain ⟨pairs, hfst, hsnd, hserves⟩ := h
  obtain ⟨⟨d, _⟩, hmem, rfl⟩ := List.mem_map.mp (hsnd.mem_iff.mp (mem_liveIn.mpr ⟨hb, hpool⟩))
  have hd : d ∈ pairs.map Prod.fst := List.mem_map_of_mem hmem
  exact ⟨d, hfst.mem_iff.mpr (List.mem_append_left _ hd), hserves _ hmem⟩

theorem Served.perm {all' cached' : List δ} (h : Served O serves all cached live)
    (hall : all'.Perm all) (hcached : cached.Perm cached') : Served O serves all' cached' live := by
  obtain ⟨pairs, hfst, hsnd, hserves⟩ := h
  exact ⟨pairs, hall.trans (hfst.trans (hcached.append_left _)), hsnd, hserves⟩

theorem Served.perm_live {live' : List Live} (h : Served O serves all cached live)
    (hperm : live.Perm live') : Served O serves all cached live' := by
  obtain ⟨pairs, hfst, hsnd, hserves⟩ := h
  exact ⟨pairs, hfst, (hperm.symm.filter _).trans hsnd, hserves⟩

theorem Served.cons (h : Served O serves all cached live) (hb : poolOf O b.request ≠ none) :
    Served O serves all cached (b :: live) := by
  unfold Served
  rw [liveIn_cons_of_ne hb]
  exact h

theorem Served.of_cons (h : Served O serves all cached (b :: live)) (hb : poolOf O b.request ≠ none) :
    Served O serves all cached live := by
  unfold Served at h
  rwa [liveIn_cons_of_ne hb] at h

theorem Served.new (h : Served O serves all cached live) (hb : poolOf O b.request = none)
    (hserves : serves d b) : Served O serves (d :: all) cached (b :: live) := by
  obtain ⟨pairs, hfst, hsnd, hall⟩ := h
  refine ⟨(d, b) :: pairs, hfst.cons d, ?_, List.forall_mem_cons.mpr ⟨hserves, hall⟩⟩
  rw [liveIn_cons_self hb]
  exact hsnd.cons b

theorem Served.back (h : Served O serves all cached (b :: live)) (hb : poolOf O b.request = none) :
    ∃ d rest, serves d b ∧ all.Perm (d :: rest) ∧ Served O serves rest cached live := by
  obtain ⟨pairs, hfst, hsnd, hall⟩ := h
  rw [liveIn_cons_self hb] at hsnd
  obtain ⟨⟨d, _⟩, hmem, rfl⟩ := List.mem_map.mp (hsnd.mem_iff.mp List.mem_cons_self)
  obtain ⟨l₁, l₂, rfl⟩ := List.append_of_mem hmem
  refine ⟨d, (l₁ ++ l₂).map Prod.fst ++ cached, hall _ hmem, ?_, l₁ ++ l₂, List.Perm.refl _, ?_,
    fun x hx => hall x ?_⟩
  · refine hfst.trans ?_
    simp only [List.map_append, List.map_cons, List.append_assoc, List.cons_append]
    exact List.perm_middle
  · rw [List.map_append, List.map_cons] at hsnd
    rw [List.map_append]
    exact (hsnd.trans List.perm_middle).cons_inv
  · rcases List.mem_append.mp hx with hx | hx
    · exact List.mem_append_left _ hx
    · exact List.mem_append_right _ (List.mem_cons_of_mem _ hx)

theorem Served.cache (h : Served O serves all cached live) :
    Served O serves (d :: all) (d :: cached) live := by
  obtain ⟨pairs, hfst, hsnd, hall⟩ := h
  exact ⟨pairs, (hfst.cons d).trans List.perm_middle.symm, hsnd, hall⟩

theorem Served.drop (h : Served O serves all (d :: cached) live) :
    ∃ rest, all.Perm (d :: rest) ∧ Served O serves rest cached live := by
  obtain ⟨pairs, hfst, hsnd, hall⟩ := h
  exact ⟨_, hfst.trans List.perm_middle, pairs, List.Perm.refl _, hsnd, hall⟩

theorem Served.take (h : Served O serves all (d :: cached) live) (hb : poolOf O b.request = none)
    (hserves : serves d b) : Served O serves all cached (b :: live) := by
  obtain ⟨rest, hperm, hrest⟩ := h.drop
  exact (hrest.new hb hserves).perm hperm (List.Perm.refl _)

end Served

end Cccl.Pool
