/-
# The stable-order look-back is run-to-run deterministic

`TilePrefixCallbackOp::lookback_stable_reduction_order` trades latency for reproducibility: only
ANCHOR tiles, those whose index is a multiple of 32, publish an INCLUSIVE prefix, and every tile
waits for the nearest anchor below it and folds exactly the tiles from there up to itself.

Whether a predecessor is read before or after it finishes still depends on timing.  But a tile
that is not an anchor never publishes anything but its aggregate, so the lanes between a tile and
its anchor read the same values in every run, and the lanes behind the anchor are cut off by the
tail flag.  The prefix a tile obtains is therefore a fixed expression in the operator and the
aggregates, `stableExclusive L t`, whose shape depends on the tile index alone.  NO algebraic law
of the operator is used for that; with associativity the expression is the in-order fold.
-/
import Cccl.Scan.Lookback

namespace Cccl.Scan

open ScanTileStatus

variable {T : Type*}

/-! ## 1. The protocol -/

/-- `anchor_tile_lane`: the lane that maps to the anchor tile. -/
def anchorTileLane (t : ℕ) : ℕ := (t - 1) % warpThreads

/-- The anchor of tile `t`: the largest multiple of 32 below it. -/
def anchorTile (t : ℕ) : ℕ := t - 1 - anchorTileLane t

/-- The segmented fold of a complete round of loads, cut at the anchor's lane. -/
def anchorAggregate (scanOp : T → T → T) (t : ℕ) (value : ℕ → T) : T :=
  tailSegmentedReduce (swizzleScanOp scanOp) value (fun l => decide (l = anchorTileLane t)) 0

/-- One atomic step of `lookback_stable_reduction_order`, by any tile. -/
inductive StableStep (L : Launch T) : State T → Action T → State T → Prop
  | window {s s' : State T} {a : Action T} : WindowStep L s a s' → StableStep L s a s'
  /-- The anchor is not INCLUSIVE yet: `WaitForValid` is called again. -/
  | waitAnchor {s : State T} {t : ℕ} {p : ℤ} {soFar : Option T}
      {lanes : ℕ → Option (TileDescriptor T)} {ds : ℕ → TileDescriptor T}
      (hs : s.tile t = .window p soFar lanes) (hds : Loaded lanes ds)
      (hvalid : ∀ l, l < warpThreads → (ds l).status ≠ scanTileInvalid)
      (hanchor : (ds (anchorTileLane t)).status ≠ scanTileInclusive) :
      StableStep L s (.retry t) (s.setTile t (.window p soFar noLanes))
  /-- The anchor is INCLUSIVE: fold down to its lane. -/
  | resolve {s : State T} {t : ℕ} {p : ℤ} {soFar : Option T}
      {lanes : ℕ → Option (TileDescriptor T)} {ds : ℕ → TileDescriptor T}
      (hs : s.tile t = .window p soFar lanes) (hds : Loaded lanes ds)
      (hvalid : ∀ l, l < warpThreads → (ds l).status ≠ scanTileInvalid)
      (hanchor : (ds (anchorTileLane t)).status = scanTileInclusive) :
      StableStep L s (.resolve t)
        (s.setTile t (.found (anchorAggregate L.scanOp t fun l => (ds l).value)))
  /-- An anchor tile publishes its inclusive prefix. -/
  | setInclusive {s : State T} {t : ℕ} {e : T} (hs : s.tile t = .found e)
      (hanchor : t % warpThreads = 0) :
      StableStep L s (.setInclusive t)
        ((s.publish t ⟨scanTileInclusive, L.scanOp e (L.blockAggregate t)⟩).setTile t
          (.done (some e)))
  /-- Non-anchor tiles stay at PARTIAL. -/
  | stayPartial {s : State T} {t : ℕ} {e : T} (hs : s.tile t = .found e)
      (hanchor : t % warpThreads ≠ 0) :
      StableStep L s (.setInclusive t) (s.setTile t (.done (some e)))

/-- The tiles of a launch, executing `lookback_stable_reduction_order` in any order. -/
def stableLookback (L : Launch T) : Lts (State T) (Action T) where
  init := State.Initial L
  step := StableStep L

/-! ## 2. The expression a tile evaluates -/

theorem anchorTileLane_lt (t : ℕ) : anchorTileLane t < warpThreads :=
  Nat.mod_lt _ (by decide)

theorem anchorTileLane_le (t : ℕ) : anchorTileLane t ≤ t - 1 := Nat.mod_le _ _

theorem anchorTile_lt {t : ℕ} (h : 0 < t) : anchorTile t < t := by
  unfold anchorTile
  omega

theorem between_not_anchor {t l : ℕ} (hl : l < anchorTileLane t) :
    (t - 1 - l) % warpThreads ≠ 0 := by
  simp only [anchorTileLane, warpThreads] at *
  omega

/-- The prefix up to tile `t`, as the deterministic look-back associates it. -/
def stableInclusive (L : Launch T) (t : ℕ) : T :=
  if h : 0 < t then
    have := anchorTile_lt h
    L.scanOp (anchorAggregate L.scanOp t fun l =>
      if l = anchorTileLane t then stableInclusive L (anchorTile t)
      else L.blockAggregate (t - 1 - l)) (L.blockAggregate t)
  else L.blockAggregate 0
termination_by t

/-- **The exclusive prefix of tile `t`**: a fixed expression in the operator and the aggregates. -/
def stableExclusive (L : Launch T) (t : ℕ) : T :=
  anchorAggregate L.scanOp t fun l =>
    if l = anchorTileLane t then stableInclusive L (anchorTile t) else L.blockAggregate (t - 1 - l)

theorem stableInclusive_zero (L : Launch T) : stableInclusive L 0 = L.blockAggregate 0 := by
  rw [stableInclusive, dif_neg (Nat.lt_irrefl 0)]

theorem stableInclusive_pos (L : Launch T) {t : ℕ} (h : 0 < t) :
    stableInclusive L t = L.scanOp (stableExclusive L t) (L.blockAggregate t) := by
  rw [stableInclusive, dif_pos h]
  rfl

theorem anchorAggregate_congr {scanOp : T → T → T} {t : ℕ} {v w : ℕ → T}
    (h : ∀ l, l ≤ anchorTileLane t → v l = w l) :
    anchorAggregate scanOp t v = anchorAggregate scanOp t w := by
  have hbefore : ∀ l, l < anchorTileLane t → decide (l = anchorTileLane t) = false :=
    fun l hl => decide_eq_false (Nat.ne_of_lt hl)
  exact tailSegmentedReduce_congr (anchorTileLane_lt t) (decide_eq_true rfl) hbefore
    (decide_eq_true rfl) hbefore h

/-! ## 3. The invariant -/

/-- A descriptor that may have been published at slot `i`: the tile's aggregate, and an INCLUSIVE
prefix at anchors only. -/
def StableLegal (L : Launch T) (i : ℤ) (d : TileDescriptor T) : Prop :=
  match d.status with
  | scanTileOob => i < 0
  | scanTileInvalid => 0 ≤ i
  | scanTilePartial => 0 < i ∧ d.value = L.blockAggregate i.toNat
  | scanTileInclusive => 0 ≤ i ∧ i.toNat % warpThreads = 0 ∧ d.value = stableInclusive L i.toNat

/-- The invariant of the deterministic look-back; its one window starts right below the tile. -/
abbrev StableInv (L : Launch T) : State T → Prop :=
  WindowInv L (StableLegal L) (fun t b _ => b + 1 = t) fun t e => e = stableExclusive L t

theorem stableLegal_inclusive {L : Launch T} {t : ℕ} {v : T} (ht : t % warpThreads = 0)
    (h : v = stableInclusive L t) : StableLegal L t ⟨scanTileInclusive, v⟩ :=
  ⟨by simp, by simpa using ht, by simpa using h⟩

/-- **Every lane up to the anchor reads the same value in every run**: the aggregate of a tile
that is not an anchor, and at the anchor its prefix. -/
theorem stable_lane_value {L : Launch T} {t b : ℕ} {ds : ℕ → TileDescriptor T} (hb : b + 1 = t)
    (hlegal : ∀ l, l < warpThreads → StableLegal L ((b : ℤ) - l) (ds l))
    (hvalid : ∀ l, l < warpThreads → (ds l).status ≠ scanTileInvalid)
    (hanchor : (ds (anchorTileLane t)).status = scanTileInclusive) {l : ℕ}
    (hl : l ≤ anchorTileLane t) :
    (ds l).value = if l = anchorTileLane t then stableInclusive L (anchorTile t)
      else L.blockAggregate (t - 1 - l) := by
  have hlt : l < warpThreads := Nat.lt_of_le_of_lt hl (anchorTileLane_lt t)
  have hle := anchorTileLane_le t
  have hnat : ((b : ℤ) - l).toNat = t - 1 - l := by omega
  have hd := hlegal l hlt
  unfold StableLegal at hd
  by_cases hla : l = anchorTileLane t
  · subst hla
    rw [hanchor] at hd
    rw [if_pos rfl]
    rw [hnat] at hd
    exact hd.2.2
  · rw [if_neg hla]
    cases hst : (ds l).status with
    | scanTileOob => rw [hst] at hd; simp only at hd; omega
    | scanTileInvalid => exact absurd hst (hvalid l hlt)
    | scanTilePartial =>
      rw [hst, hnat] at hd
      exact hd.2
    | scanTileInclusive =>
      rw [hst, hnat] at hd
      exact absurd hd.2.1 (between_not_anchor (by omega))

theorem stableInv_step {L : Launch T} {s s' : State T} {a : Action T} (h : StableInv L s)
    (hst : StableStep L s a s') : StableInv L s' := by
  cases hst with
  | window hw =>
    refine h.step ?_ ?_ (fun t b hb => hb) hw
    · exact stableLegal_inclusive (t := 0) rfl (stableInclusive_zero L).symm
    · exact fun t ht => ⟨by exact_mod_cast ht, by simp⟩
  | waitAnchor hs hds hvalid hanchor =>
    obtain ⟨b, rfl, ht, hbt, hb, -⟩ := h.loaded hs hds
    exact h.setWindow ht hbt hb
  | resolve hs hds hvalid hanchor =>
    obtain ⟨b, rfl, ht, hbt, hb, hlegal⟩ := h.loaded hs hds
    refine h.setTile ⟨by omega, ?_⟩
    exact anchorAggregate_congr fun l hl => stable_lane_value hb hlegal hvalid hanchor hl
  | @setInclusive t e hs hanchor =>
    have hph := h.phase t
    rw [hs] at hph
    obtain ⟨h0, rfl⟩ := hph
    exact (h.publish (stableLegal_inclusive hanchor (stableInclusive_pos L h0).symm)).setTile
      ⟨h0, rfl⟩
  | @stayPartial t e hs hanchor =>
    have hph := h.phase t
    rw [hs] at hph
    exact h.setTile hph

theorem stableInv_reachable {L : Launch T} {s : State T} (h : (stableLookback L).Reachable s) :
    StableInv L s :=
  h.invariant (P := StableInv L)
    (fun _ hinit => WindowInv.init
      (fun i d hi hst => by unfold StableLegal; rw [hst]; exact hi)
      (fun i d hi hst => by unfold StableLegal; rw [hst]; exact hi) hinit)
    fun _ _ _ => stableInv_step

/-! ## 4. With associativity, the in-order fold -/

theorem stableInclusive_eq {L : Launch T}
    (hop : ∀ x y z, L.scanOp (L.scanOp x y) z = L.scanOp x (L.scanOp y z)) (t : ℕ) :
    stableInclusive L t = L.inclusivePrefix t ∧
      (0 < t → stableExclusive L t = L.inclusivePrefix (t - 1)) := by
  induction t using Nat.strong_induction_on with
  | _ t ih =>
    have hexcl : 0 < t → stableExclusive L t = L.inclusivePrefix (t - 1) := by
      intro h0
      have hbefore : ∀ l, l < anchorTileLane t → decide (l = anchorTileLane t) = false :=
        fun l hl => decide_eq_false (Nat.ne_of_lt hl)
      refine (tailSegmentedReduce_eq_fold1 (swizzleScanOp_assoc hop) _ (anchorTileLane_lt t)
        (decide_eq_true rfl) hbefore).trans ?_
      refine fold1_lanes_below hop (anchorTileLane_le t) ?_ ?_
      · rw [if_pos rfl]
        exact (ih _ (anchorTile_lt h0)).1
      · intro l hl
        rw [if_neg (Nat.ne_of_lt hl)]
    refine ⟨?_, hexcl⟩
    rcases Nat.eq_zero_or_pos t with rfl | h0
    · exact stableInclusive_zero L
    · rw [stableInclusive_pos L h0, hexcl h0, ← inclusivePrefix_succ L h0]

/-! ## 5. Determinism -/

/-- **The stable-order look-back is run-to-run deterministic**, for every operator: any two runs
give a tile the same exclusive prefix and publish the same INCLUSIVE values, because the prefix of
tile `t` is `stableExclusive L t`, an expression fixed by the tile index; and for an associative
operator it is the in-order fold of the aggregates before the tile. -/
theorem stableLookback_deterministic (L : Launch T) :
    (∀ s₁ s₂ : State T, (stableLookback L).Reachable s₁ → (stableLookback L).Reachable s₂ →
      (∀ t e₁ e₂, (s₁.tile t).exclusivePrefix? = some e₁ →
        (s₂.tile t).exclusivePrefix? = some e₂ → e₁ = e₂) ∧
      ∀ i d₁ d₂, d₁ ∈ s₁.published i → d₁.status = scanTileInclusive →
        d₂ ∈ s₂.published i → d₂.status = scanTileInclusive → d₁.value = d₂.value) ∧
    ∀ s : State T, (stableLookback L).Reachable s → ∀ t e,
      (s.tile t).exclusivePrefix? = some e → e = stableExclusive L t ∧
        ((∀ x y z, L.scanOp (L.scanOp x y) z = L.scanOp x (L.scanOp y z)) →
          e = fold1 L.scanOp L.blockAggregate 0 (t - 1)) := by
  have hslot : ∀ s : State T, (stableLookback L).Reachable s → ∀ i d, d ∈ s.published i →
      d.status = scanTileInclusive → d.value = stableInclusive L i.toNat := by
    intro s hs i d hd hst
    have hlegal := (stableInv_reachable hs).slot i d hd
    unfold StableLegal at hlegal
    rw [hst] at hlegal
    exact hlegal.2.2
  refine ⟨fun s₁ s₂ h₁ h₂ => ⟨?_, ?_⟩, ?_⟩
  · intro t e₁ e₂ he₁ he₂
    rw [((stableInv_reachable h₁).exclusivePrefix he₁).2,
      ((stableInv_reachable h₂).exclusivePrefix he₂).2]
  · intro i d₁ d₂ hd₁ hst₁ hd₂ hst₂
    rw [hslot s₁ h₁ i d₁ hd₁ hst₁, hslot s₂ h₂ i d₂ hd₂ hst₂]
  · intro s hs t e he
    obtain ⟨h0, hval⟩ := (stableInv_reachable hs).exclusivePrefix he
    exact ⟨hval, fun hop => hval.trans ((stableInclusive_eq hop t).2 h0)⟩

/-- A window none of whose slots is INVALID and whose anchor is INCLUSIVE resolves. -/
theorem reachable_resolve_anchor {L : Launch T} {s : State T} {t : ℕ} {p : ℤ} {soFar : Option T}
    {ds : ℕ → TileDescriptor T} (hs : (stableLookback L).Reachable s)
    (htile : s.tile t = .window p soFar noLanes)
    (hds : ∀ l, l < warpThreads → s.Readable L (p - l) (ds l))
    (hvalid : ∀ l, l < warpThreads → (ds l).status ≠ scanTileInvalid)
    (hanchor : (ds (anchorTileLane t)).status = scanTileInclusive) :
    (stableLookback L).Reachable
      (s.setTile t (.found (anchorAggregate L.scanOp t fun l => (ds l).value))) := by
  have hload := reachable_loads (fun _ _ _ => StableStep.window) hs htile hds warpThreads
    (Nat.le_refl _)
  have hstep := StableStep.resolve (L := L)
    (State.setTile_tile_self s t (.window p soFar (firstLanes ds warpThreads)))
    (loaded_firstLanes ds) hvalid hanchor
  rw [State.setTile_setTile] at hstep
  exact hload.step hstep

/-- The second of two tiles obtains the prefix the theorem names. -/
theorem stableLookback_deterministic_twoTiles :
    ∃ s : State (List ℕ), (stableLookback twoTiles).Reachable s ∧
      ∃ e, (s.tile 1).exclusivePrefix? = some e ∧ e = stableExclusive twoTiles 1 ∧
        e = fold1 twoTiles.scanOp twoTiles.blockAggregate 0 0 := by
  have hpub : (stableLookback twoTiles).Reachable twoTilesPublished :=
    twoTilesPublished_reachable twoTilesInit_initial fun _ _ _ => StableStep.window
  have hres := reachable_resolve_anchor hpub (State.setTile_tile_self _ 1 _)
    (fun l _ => twoTilesLanes_readable l)
    (fun l _ => by unfold twoTilesLanes; split <;> decide) rfl
  have he : ((twoTilesPublished.setTile 1 (.found (anchorAggregate twoTiles.scanOp 1
      fun l => (twoTilesLanes l).value))).tile 1).exclusivePrefix?
      = some (anchorAggregate twoTiles.scanOp 1 fun l => (twoTilesLanes l).value) := by
    rw [State.setTile_tile_self]
    rfl
  have hdet := (stableLookback_deterministic twoTiles).2 _ hres 1 _ he
  exact ⟨_, hres, _, he, hdet.1, hdet.2 List.append_assoc⟩

end Cccl.Scan
