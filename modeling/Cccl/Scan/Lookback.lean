/-
# Decoupled look-back: every schedule yields the in-order prefix

`TilePrefixCallbackOp::lookback` (`single_pass_scan_operators.cuh`).  Tile 0 publishes its
aggregate as INCLUSIVE.  Every other tile publishes its aggregate as PARTIAL, then looks at the
32 tiles before it, waits until none of them is INVALID, folds the window down to the nearest
INCLUSIVE one, and slides the window back by 32 while there is none; the prefix so obtained,
combined with its own aggregate, it publishes as INCLUSIVE.

The tiles run in any order and a window mixes descriptors read at different times.  What makes
the result independent of all that is a fact about each slot alone: whatever has been published
at slot `i` is either the aggregate of tile `i` marked PARTIAL or the prefix up to tile `i`
marked INCLUSIVE (`Legal`), and slot 0 never holds a PARTIAL.  So a window folds to the right
value whichever of the two each lane happened to see (`windowAggregate_found`,
`windowAggregate_slide`), and a window that reaches tile 0 stops there, which is why no lane ever
looks below the padding.

The operator is associative and nothing more: no commutativity, no identity.
-/
import Cccl.Scan.Window

namespace Cccl.Scan

open ScanTileStatus

variable {T : Type*}

/-! ## 1. The protocol -/

/-- `ProcessWindow` after `WaitForValid`: the segmented fold of a complete round of loads, with
the tail flag on INCLUSIVE and the scan operator swizzled because the lanes scan down towards
lane 0.  This is the `window_aggregate` of lane 0. -/
def windowAggregate (scanOp : T → T → T) (ds : ℕ → TileDescriptor T) : T :=
  tailSegmentedReduce (swizzleScanOp scanOp) (fun l => (ds l).value)
    (fun l => decide ((ds l).status = scanTileInclusive)) 0

/-- The exclusive prefix starts out as the first window aggregate, and each further window is
combined on the left. -/
def accumulate (scanOp : T → T → T) (soFar : Option T) (window : T) : T :=
  match soFar with
  | none => window
  | some e => scanOp window e

/-- One atomic step of `lookback`, by any tile. -/
inductive LookbackStep (L : Launch T) : State T → Action T → State T → Prop
  | window {s s' : State T} {a : Action T} : WindowStep L s a s' → LookbackStep L s a s'
  /-- No lane has read INCLUSIVE: fold the window and slide it back. -/
  | slide {s : State T} {t : ℕ} {p : ℤ} {soFar : Option T}
      {lanes : ℕ → Option (TileDescriptor T)} {ds : ℕ → TileDescriptor T}
      (hs : s.tile t = .window p soFar lanes) (hds : Loaded lanes ds)
      (hvalid : ∀ l, l < warpThreads → (ds l).status ≠ scanTileInvalid)
      (hall : ∀ l, l < warpThreads → (ds l).status ≠ scanTileInclusive) :
      LookbackStep L s (.slide t)
        (s.setTile t (.window (p - warpThreads)
          (some (accumulate L.scanOp soFar (windowAggregate L.scanOp ds))) noLanes))
  /-- Some lane has read INCLUSIVE: the exclusive prefix is complete. -/
  | resolve {s : State T} {t : ℕ} {p : ℤ} {soFar : Option T}
      {lanes : ℕ → Option (TileDescriptor T)} {ds : ℕ → TileDescriptor T}
      (hs : s.tile t = .window p soFar lanes) (hds : Loaded lanes ds)
      (hvalid : ∀ l, l < warpThreads → (ds l).status ≠ scanTileInvalid)
      (hsome : ∃ l, l < warpThreads ∧ (ds l).status = scanTileInclusive) :
      LookbackStep L s (.resolve t)
        (s.setTile t (.found (accumulate L.scanOp soFar (windowAggregate L.scanOp ds))))
  /-- Compute the inclusive tile prefix and update the status for this tile. -/
  | setInclusive {s : State T} {t : ℕ} {e : T} (hs : s.tile t = .found e) :
      LookbackStep L s (.setInclusive t)
        ((s.publish t ⟨scanTileInclusive, L.scanOp e (L.blockAggregate t)⟩).setTile t
          (.done (some e)))

/-- The tiles of a launch, executing `lookback` in any order. -/
def lookback (L : Launch T) : Lts (State T) (Action T) where
  init := State.Initial L
  step := LookbackStep L

/-! ## 2. What a slot may hold -/

/-- A descriptor that may have been published at slot `i`. -/
def Legal (L : Launch T) (i : ℤ) (d : TileDescriptor T) : Prop :=
  match d.status with
  | scanTileOob => i < 0
  | scanTileInvalid => 0 ≤ i
  | scanTilePartial => 0 < i ∧ d.value = L.blockAggregate i.toNat
  | scanTileInclusive => 0 ≤ i ∧ d.value = L.inclusivePrefix i.toNat

theorem legal_aggregate {L : Launch T} {t : ℕ} (h : 0 < t) :
    Legal L t ⟨scanTilePartial, L.blockAggregate t⟩ :=
  ⟨by exact_mod_cast h, by simp⟩

theorem legal_inclusive {L : Launch T} {t : ℕ} {v : T} (h : v = L.inclusivePrefix t) :
    Legal L t ⟨scanTileInclusive, v⟩ :=
  ⟨by simp, by simpa using h⟩

/-- A legal descriptor that a lane keeps is the aggregate or the prefix of an existing tile, and
at tile 0 it is the prefix. -/
theorem Legal.cases_nat {L : Launch T} {b l : ℕ} {d : TileDescriptor T}
    (h : Legal L ((b : ℤ) - l) d) (hl : l ≤ b) (hvalid : d.status ≠ scanTileInvalid) :
    (d.status = scanTilePartial ∧ l < b ∧ d.value = L.blockAggregate (b - l)) ∨
      (d.status = scanTileInclusive ∧ d.value = L.inclusivePrefix (b - l)) := by
  have hnat : ((b : ℤ) - l).toNat = b - l := by omega
  unfold Legal at h
  cases hst : d.status with
  | scanTileOob => rw [hst] at h; simp only at h; omega
  | scanTileInvalid => exact absurd hst hvalid
  | scanTilePartial =>
    rw [hst] at h
    refine Or.inl ⟨rfl, by have := h.1; omega, ?_⟩
    rw [← hnat]
    exact h.2
  | scanTileInclusive =>
    rw [hst] at h
    refine Or.inr ⟨rfl, ?_⟩
    rw [← hnat]
    exact h.2

/-! ## 3. The two ways a window folds -/

theorem swizzleScanOp_assoc {scanOp : T → T → T}
    (hop : ∀ x y z, scanOp (scanOp x y) z = scanOp x (scanOp y z)) (x y z : T) :
    swizzleScanOp scanOp (swizzleScanOp scanOp x y) z
      = swizzleScanOp scanOp x (swizzleScanOp scanOp y z) :=
  (hop z y x).symm

/-- Lanes that hold the aggregates of tiles `b, b - 1, ...` and end in the prefix up to some tile
fold to the prefix up to tile `b`. -/
theorem fold1_lanes_below {L : Launch T}
    (hop : ∀ x y z, L.scanOp (L.scanOp x y) z = L.scanOp x (L.scanOp y z)) {v : ℕ → T} {b : ℕ} :
    ∀ {last : ℕ}, last ≤ b → v last = L.inclusivePrefix (b - last) →
      (∀ l, l < last → v l = L.blockAggregate (b - l)) →
      fold1 (swizzleScanOp L.scanOp) v 0 last = L.inclusivePrefix b
  | 0, _, hlast, _ => by simpa using hlast
  | m + 1, hlb, hlast, hbefore => by
    have hfold : fold1 (swizzleScanOp L.scanOp) v 0 m
        = fold1 L.scanOp L.blockAggregate (b - m) m := by
      refine fold1_swap hop fun k hk => ?_
      have hidx : b - m + (m - k) = b - k := by omega
      rw [Nat.zero_add, hbefore k (by omega), hidx]
    have hcut := fold1_split hop L.blockAggregate 0 (b - (m + 1)) m
    have hlen : b - (m + 1) + m + 1 = b := by omega
    have hlow : 0 + (b - (m + 1)) + 1 = b - m := by omega
    rw [hlen, hlow] at hcut
    calc fold1 (swizzleScanOp L.scanOp) v 0 (m + 1)
        = L.scanOp (v (0 + m + 1)) (fold1 (swizzleScanOp L.scanOp) v 0 m) := rfl
      _ = L.scanOp (L.inclusivePrefix (b - (m + 1)))
            (fold1 L.scanOp L.blockAggregate (b - m) m) := by
          rw [hfold, Nat.zero_add, hlast]
      _ = L.inclusivePrefix b := hcut.symm

section Fold

variable {L : Launch T} {b : ℕ} {ds : ℕ → TileDescriptor T}

/-- Tile 0 is only ever seen INCLUSIVE, so lanes without INCLUSIVE lie strictly above it. -/
theorem window_above_first (hlegal : ∀ l, l < warpThreads → Legal L ((b : ℤ) - l) (ds l))
    (hvalid : ∀ l, l < warpThreads → (ds l).status ≠ scanTileInvalid) {m : ℕ}
    (hm : m ≤ warpThreads) (hnone : ∀ l, l < m → (ds l).status ≠ scanTileInclusive) : m ≤ b := by
  by_contra hlt
  have hb : b < m := by omega
  rcases (hlegal b (by omega)).cases_nat (Nat.le_refl b) (hvalid b (by omega)) with h | h
  · have := h.2.1
    omega
  · exact hnone b hb h.1

theorem lane_value_of_not_inclusive
    (hlegal : ∀ l, l < warpThreads → Legal L ((b : ℤ) - l) (ds l))
    (hvalid : ∀ l, l < warpThreads → (ds l).status ≠ scanTileInvalid) {l : ℕ}
    (hl : l < warpThreads) (hlb : l ≤ b) (hnot : (ds l).status ≠ scanTileInclusive) :
    (ds l).value = L.blockAggregate (b - l) := by
  rcases (hlegal l hl).cases_nat hlb (hvalid l hl) with h | h
  · exact h.2.2
  · exact absurd h.1 hnot

/-- **A window without INCLUSIVE** consists of 32 tiles strictly above tile 0 and folds to their
aggregates. -/
theorem windowAggregate_slide
    (hop : ∀ x y z, L.scanOp (L.scanOp x y) z = L.scanOp x (L.scanOp y z))
    (hlegal : ∀ l, l < warpThreads → Legal L ((b : ℤ) - l) (ds l))
    (hvalid : ∀ l, l < warpThreads → (ds l).status ≠ scanTileInvalid)
    (hall : ∀ l, l < warpThreads → (ds l).status ≠ scanTileInclusive) :
    31 < b ∧ windowAggregate L.scanOp ds = fold1 L.scanOp L.blockAggregate (b - 31) 31 := by
  have hb : warpThreads ≤ b := window_above_first hlegal hvalid (Nat.le_refl _) hall
  refine ⟨hb, ?_⟩
  have hred : windowAggregate L.scanOp ds
      = fold1 (swizzleScanOp L.scanOp) (fun l => (ds l).value) 0 (warpThreads - 1) :=
    tailSegmentedReduce_eq_fold1_of_none (swizzleScanOp_assoc hop) _
      fun l hl => by simp [hall l hl]
  refine hred.trans (fold1_swap hop fun k hk => ?_)
  have hk' : k < warpThreads := Nat.lt_of_le_of_lt hk (by decide)
  have hidx : b - 31 + (31 - k) = b - k := by simp only [warpThreads] at *; omega
  rw [Nat.zero_add, lane_value_of_not_inclusive hlegal hvalid hk' (by omega) (hall k hk')]
  exact congrArg L.blockAggregate hidx.symm

/-- **A window with INCLUSIVE** folds to the prefix up to its first tile: the nearest INCLUSIVE
lane holds the prefix below it, and the lanes in front of it the aggregates above. -/
theorem windowAggregate_found
    (hop : ∀ x y z, L.scanOp (L.scanOp x y) z = L.scanOp x (L.scanOp y z))
    (hlegal : ∀ l, l < warpThreads → Legal L ((b : ℤ) - l) (ds l))
    (hvalid : ∀ l, l < warpThreads → (ds l).status ≠ scanTileInvalid)
    (hsome : ∃ l, l < warpThreads ∧ (ds l).status = scanTileInclusive) :
    windowAggregate L.scanOp ds = L.inclusivePrefix b := by
  classical
  -- the first INCLUSIVE lane is the end of lane 0's segment
  obtain ⟨hlast, hincl⟩ := Nat.find_spec hsome
  have hbefore : ∀ l, l < Nat.find hsome → (ds l).status ≠ scanTileInclusive := fun l hl h =>
    Nat.find_min hsome hl ⟨by omega, h⟩
  have hlb : Nat.find hsome ≤ b := window_above_first hlegal hvalid (by omega) hbefore
  have hred : windowAggregate L.scanOp ds
      = fold1 (swizzleScanOp L.scanOp) (fun l => (ds l).value) 0 (Nat.find hsome) :=
    tailSegmentedReduce_eq_fold1 (swizzleScanOp_assoc hop) _ hlast (by simp [hincl])
      fun l hl => by simp [hbefore l hl]
  rw [hred]
  refine fold1_lanes_below hop hlb ?_ ?_
  · rcases (hlegal _ hlast).cases_nat hlb (hvalid _ hlast) with h | h
    · rw [hincl] at h
      exact absurd h.1 (by decide)
    · exact h.2
  · intro l hl
    exact lane_value_of_not_inclusive hlegal hvalid (by omega) (by omega) (hbefore l hl)

end Fold

/-! ## 4. The invariant -/

/-- What tile `t` has gathered once its window starts at tile `b`: nothing when that is its
immediate predecessor, else the aggregates of the tiles between `b` and `t`. -/
def SoFarOk (L : Launch T) (t b : ℕ) : Option T → Prop
  | none => b + 1 = t
  | some e => ∃ n, b + n + 2 = t ∧ e = fold1 L.scanOp L.blockAggregate (b + 1) n

/-- The look-back invariant. -/
abbrev LookbackInv (L : Launch T) : State T → Prop :=
  WindowInv L (Legal L) (SoFarOk L) fun t e => e = L.inclusivePrefix (t - 1)

theorem accumulate_eq {L : Launch T}
    (hop : ∀ x y z, L.scanOp (L.scanOp x y) z = L.scanOp x (L.scanOp y z)) {b t lo n : ℕ}
    {soFar : Option T} (hsoFar : SoFarOk L t b soFar) (hlo : lo + n = b) {w : T}
    (hw : w = fold1 L.scanOp L.blockAggregate lo n) :
    ∃ k, lo + k + 1 = t ∧ accumulate L.scanOp soFar w = fold1 L.scanOp L.blockAggregate lo k := by
  cases soFar with
  | none =>
    have hb : b + 1 = t := hsoFar
    exact ⟨n, by omega, hw⟩
  | some e =>
    obtain ⟨m, hm, rfl⟩ := hsoFar
    refine ⟨n + m + 1, by omega, ?_⟩
    rw [fold1_split hop, hlo, ← hw]
    rfl

/-- The prefix up to a tile is the prefix before it, combined with its aggregate. -/
theorem inclusivePrefix_succ (L : Launch T) {t : ℕ} (h0 : 0 < t) :
    L.inclusivePrefix t = L.scanOp (L.inclusivePrefix (t - 1)) (L.blockAggregate t) := by
  have ht : t - 1 + 1 = t := by omega
  have hsucc := fold1_succ L.scanOp L.blockAggregate 0 (t - 1)
  rw [ht, Nat.zero_add, ht] at hsucc
  exact hsucc

theorem lookbackInv_step {L : Launch T}
    (hop : ∀ x y z, L.scanOp (L.scanOp x y) z = L.scanOp x (L.scanOp y z))
    {s s' : State T} {a : Action T} (h : LookbackInv L s) (hst : LookbackStep L s a s') :
    LookbackInv L s' := by
  cases hst with
  | window hw =>
    exact h.step (legal_inclusive rfl) (fun t => legal_aggregate) (fun t b hb => hb) hw
  | @slide t p soFar lanes ds hs hds hvalid hall =>
    obtain ⟨b, rfl, ht, hbt, hsoFar, hlegal⟩ := h.loaded hs hds
    obtain ⟨hb, hw⟩ := windowAggregate_slide hop hlegal hvalid hall
    have hlo : b - 31 + 31 = b := by omega
    obtain ⟨k, hk, hacc⟩ := accumulate_eq hop hsoFar hlo hw
    have hcast : (b : ℤ) - warpThreads = ((b - 32 : ℕ) : ℤ) := by
      simp only [warpThreads]
      omega
    rw [hcast]
    refine h.setWindow ht (by omega) ⟨k, by omega, ?_⟩
    rw [hacc]
    congr 1
    omega
  | @resolve t p soFar lanes ds hs hds hvalid hsome =>
    obtain ⟨b, rfl, ht, hbt, hsoFar, hlegal⟩ := h.loaded hs hds
    have hw := windowAggregate_found hop hlegal hvalid hsome
    obtain ⟨k, hk, hacc⟩ := accumulate_eq hop hsoFar (Nat.zero_add b) hw
    have hlen : k = t - 1 := by omega
    subst hlen
    exact h.setTile ⟨by omega, hacc⟩
  | @setInclusive t e hs =>
    have hph := h.phase t
    rw [hs] at hph
    obtain ⟨h0, rfl⟩ := hph
    exact (h.publish (legal_inclusive (inclusivePrefix_succ L h0).symm)).setTile ⟨h0, rfl⟩

theorem lookbackInv_reachable {L : Launch T}
    (hop : ∀ x y z, L.scanOp (L.scanOp x y) z = L.scanOp x (L.scanOp y z)) {s : State T}
    (h : (lookback L).Reachable s) : LookbackInv L s :=
  h.invariant (P := LookbackInv L)
    (fun _ hinit => WindowInv.init
      (fun i d hi hst => by unfold Legal; rw [hst]; exact hi)
      (fun i d hi hst => by unfold Legal; rw [hst]; exact hi) hinit)
    fun _ _ _ => lookbackInv_step hop

/-! ## 5. What the tiles obtain, under every schedule -/

/-- **Decoupled look-back is correct under every schedule.**  In every state the tiles can reach,
whatever the order of their steps and whichever published descriptor each load returned:

* the exclusive prefix a tile has obtained is the in-order fold of the aggregates before it;
* whatever slot `i` ever held as INCLUSIVE is the in-order fold of the aggregates `0 .. i`;
* no load goes below the padding. -/
theorem lookback_correct (L : Launch T)
    (hop : ∀ x y z, L.scanOp (L.scanOp x y) z = L.scanOp x (L.scanOp y z)) (s : State T)
    (hs : (lookback L).Reachable s) :
    (∀ t e, (s.tile t).exclusivePrefix? = some e →
        0 < t ∧ e = fold1 L.scanOp L.blockAggregate 0 (t - 1)) ∧
      (∀ i d, d ∈ s.published i → d.status = scanTileInclusive →
        0 ≤ i ∧ d.value = fold1 L.scanOp L.blockAggregate 0 i.toNat) ∧
      ∀ t lane idx d s', LookbackStep L s (.load t lane idx d) s' → -32 ≤ idx := by
  have hinv := lookbackInv_reachable hop hs
  refine ⟨fun t e he => hinv.exclusivePrefix he, ?_, ?_⟩
  · intro i d hd hst
    have hlegal := hinv.slot i d hd
    unfold Legal at hlegal
    rw [hst] at hlegal
    exact hlegal
  · intro t lane idx d s' hst
    cases hst with
    | window hw =>
      cases hw with
      | load htile hl _ _ => exact (hinv.bounds htile hl).1

/-- A window none of whose slots is INVALID and one of which is INCLUSIVE resolves. -/
theorem reachable_resolve {L : Launch T} {s : State T} {t : ℕ} {p : ℤ} {soFar : Option T}
    {ds : ℕ → TileDescriptor T} (hs : (lookback L).Reachable s)
    (htile : s.tile t = .window p soFar noLanes)
    (hds : ∀ l, l < warpThreads → s.Readable L (p - l) (ds l))
    (hvalid : ∀ l, l < warpThreads → (ds l).status ≠ scanTileInvalid)
    (hsome : ∃ l, l < warpThreads ∧ (ds l).status = scanTileInclusive) :
    (lookback L).Reachable
      (s.setTile t (.found (accumulate L.scanOp soFar (windowAggregate L.scanOp ds)))) := by
  have hload := reachable_loads (fun _ _ _ => LookbackStep.window) hs htile hds warpThreads
    (Nat.le_refl _)
  have hstep := LookbackStep.resolve (L := L)
    (State.setTile_tile_self s t (.window p soFar (firstLanes ds warpThreads)))
    (loaded_firstLanes ds) hvalid hsome
  rw [State.setTile_setTile] at hstep
  exact hload.step hstep

/-! ## 6. Two tiles -/

/-- Two tiles, scanned with list concatenation, which is not commutative. -/
def twoTiles : Launch (List ℕ) where
  scanOp := List.append
  numTiles := 2
  blockAggregate := fun t => [t]

/-- Their tile states right after `InitializeStatus`. -/
def twoTilesInit : State (List ℕ) :=
  ⟨fun i => if i < 0 then [⟨scanTileOob, []⟩] else [⟨scanTileInvalid, []⟩], fun _ => .start⟩

theorem twoTilesInit_initial : State.Initial twoTiles twoTilesInit := by
  refine ⟨?_, ?_, ?_, fun _ => rfl⟩
  · intro i hi d hd
    simp only [twoTilesInit, if_neg (not_lt.mpr hi), List.mem_singleton] at hd
    rw [hd]
  · intro i hi d hd
    simp only [twoTilesInit, if_pos hi, List.mem_singleton] at hd
    rw [hd]
  · intro i _ _
    simp only [twoTilesInit]
    split <;> simp

/-- Both tiles have published; tile 1 looks at tile 0. -/
def twoTilesPublished : State (List ℕ) :=
  (((twoTilesInit.publish 0 ⟨scanTileInclusive, [0]⟩).setTile 0 (.done none)).publish 1
    ⟨scanTilePartial, [1]⟩).setTile 1 (.window (((1 : ℕ) : ℤ) - 1) none noLanes)

/-- What the lanes of tile 1 find there: the prefix of tile 0, and the padding behind it. -/
def twoTilesLanes (l : ℕ) : TileDescriptor (List ℕ) :=
  if l = 0 then ⟨scanTileInclusive, [0]⟩ else ⟨scanTileOob, []⟩

theorem twoTilesLanes_readable (l : ℕ) :
    twoTilesPublished.Readable twoTiles (((1 : ℕ) : ℤ) - 1 - l) (twoTilesLanes l) := by
  refine Or.inr (Or.inr ?_)
  by_cases hl0 : l = 0
  · subst hl0
    simp [twoTilesPublished, twoTilesLanes, State.publish, State.setTile]
  · have hneg : ((1 : ℕ) : ℤ) - 1 - l < 0 := by omega
    have h1 : ((1 : ℕ) : ℤ) - 1 - l ≠ ((1 : ℕ) : ℤ) := by omega
    have h2 : ((1 : ℕ) : ℤ) - 1 - l ≠ ((0 : ℕ) : ℤ) := by omega
    simp only [twoTilesLanes, if_neg hl0, twoTilesPublished, twoTilesInit, State.publish,
      State.setTile, Function.update_of_ne h1, Function.update_of_ne h2, if_pos hneg,
      List.mem_singleton]

/-- The two publications, in any protocol that has the shared steps. -/
theorem twoTilesPublished_reachable {M : Lts (State (List ℕ)) (Action (List ℕ))}
    (hinit : M.init twoTilesInit)
    (hM : ∀ s a s', WindowStep twoTiles s a s' → M.step s a s') :
    M.Reachable twoTilesPublished := by
  have h₀ : M.Reachable twoTilesInit := .init hinit
  have h₁ := h₀.step (hM _ _ _ (WindowStep.setInclusiveFirst (by decide) rfl))
  exact h₁.step (hM _ _ _ (WindowStep.setPartial (t := 1) (by decide) (by decide) rfl))

/-- The second of the two tiles does obtain a prefix, and it is the aggregate of the first. -/
theorem lookback_correct_twoTiles : ∃ s : State (List ℕ), (lookback twoTiles).Reachable s ∧
    (s.tile 1).exclusivePrefix? ≠ none ∧
    ∀ t e, (s.tile t).exclusivePrefix? = some e →
      0 < t ∧ e = fold1 twoTiles.scanOp twoTiles.blockAggregate 0 (t - 1) := by
  have hpub : (lookback twoTiles).Reachable twoTilesPublished :=
    twoTilesPublished_reachable twoTilesInit_initial fun _ _ _ => LookbackStep.window
  have hres := reachable_resolve hpub (State.setTile_tile_self _ 1 _)
    (fun l _ => twoTilesLanes_readable l)
    (fun l _ => by unfold twoTilesLanes; split <;> decide) ⟨0, by decide, rfl⟩
  exact ⟨_, hres, by simp [State.setTile, Phase.exclusivePrefix?],
    (lookback_correct twoTiles List.append_assoc _ hres).1⟩

end Cccl.Scan
