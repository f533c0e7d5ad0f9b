/-
# The steps both look-backs share

`lookback` and `lookback_stable_reduction_order` publish and load alike: tile 0 publishes its
aggregate as INCLUSIVE, every other tile publishes its aggregate as PARTIAL and then lets the 32
lanes of a warp load the descriptors of 32 predecessors, again and again while any of them is
INVALID.  They differ in what ends a window and in who publishes an INCLUSIVE prefix.

The invariant of either is of one shape, with three holes: which descriptors may stand in a slot
(`legal`), what a tile has gathered by the time its window starts at tile `b` (`baseOk`), and what
its exclusive prefix is (`prefixOk`).  The shared steps keep every such invariant
(`WindowInv.step`).
-/
import Mathlib.Tactic.Linarith
import Cccl.Scan.TileState

namespace Cccl.Scan

open ScanTileStatus

variable {T : Type*}

/-! ## 1. The steps -/

/-- The atomic steps of a tile. -/
inductive Action (T : Type*)
  | setInclusiveFirst
  | setPartial (t : ℕ)
  | load (t lane : ℕ) (idx : ℤ) (d : TileDescriptor T)
  | retry (t : ℕ)
  | slide (t : ℕ)
  | resolve (t : ℕ)
  | setInclusive (t : ℕ)

/-- Publishing and `WaitForValid`, by any tile. -/
inductive WindowStep (L : Launch T) : State T → Action T → State T → Prop
  /-- The first tile publishes its inclusive aggregate directly. -/
  | setInclusiveFirst {s : State T} (hn : 0 < L.numTiles) (hs : s.tile 0 = .start) :
      WindowStep L s .setInclusiveFirst
        ((s.publish 0 ⟨scanTileInclusive, L.blockAggregate 0⟩).setTile 0 (.done none))
  /-- Any other tile updates its status with its aggregate and looks at its predecessors. -/
  | setPartial {s : State T} {t : ℕ} (h0 : 0 < t) (hn : t < L.numTiles) (hs : s.tile t = .start) :
      WindowStep L s (.setPartial t)
        ((s.publish t ⟨scanTilePartial, L.blockAggregate t⟩).setTile t
          (.window ((t : ℤ) - 1) none noLanes))
  /-- One lane of the warp loads its predecessor's descriptor. -/
  | load {s : State T} {t lane : ℕ} {p : ℤ} {soFar : Option T}
      {lanes : ℕ → Option (TileDescriptor T)} {d : TileDescriptor T}
      (hs : s.tile t = .window p soFar lanes) (hl : lane < warpThreads) (hfree : lanes lane = none)
      (hd : s.Readable L (p - lane) d) :
      WindowStep L s (.load t lane (p - lane) d)
        (s.setTile t (.window p soFar (Function.update lanes lane (some d))))
  /-- Some lane has read INVALID: all lanes load again. -/
  | retry {s : State T} {t : ℕ} {p : ℤ} {soFar : Option T}
      {lanes : ℕ → Option (TileDescriptor T)} {ds : ℕ → TileDescriptor T}
      (hs : s.tile t = .window p soFar lanes) (hds : Loaded lanes ds)
      (hany : ∃ l, l < warpThreads ∧ (ds l).status = scanTileInvalid) :
      WindowStep L s (.retry t) (s.setTile t (.window p soFar noLanes))

/-! ## 2. The shape of the invariant -/

section Invariant

variable (L : Launch T) (legal : ℤ → TileDescriptor T → Prop) (baseOk : ℕ → ℕ → Option T → Prop)
  (prefixOk : ℕ → T → Prop)

/-- What is known of a tile in each phase. -/
def PhaseOk (t : ℕ) : Phase T → Prop
  | .start => True
  | .window p soFar lanes => t < L.numTiles ∧ ∃ b : ℕ, p = b ∧ b < t ∧ baseOk t b soFar ∧
      ∀ l d, l < warpThreads → lanes l = some d → legal ((b : ℤ) - l) d
  | .found e => 0 < t ∧ prefixOk t e
  | .done none => True
  | .done (some e) => 0 < t ∧ prefixOk t e

/-- Slots hold legal descriptors and every tile is in order. -/
structure WindowInv (s : State T) : Prop where
  slot : ∀ i d, d ∈ s.published i → legal i d
  phase : ∀ t, PhaseOk L legal baseOk prefixOk t (s.tile t)

end Invariant

namespace WindowInv

variable {L : Launch T} {legal : ℤ → TileDescriptor T → Prop} {baseOk : ℕ → ℕ → Option T → Prop}
  {prefixOk : ℕ → T → Prop} {s : State T}

/-- Before any tile has started, the slots hold INVALID and the padding OOB. -/
theorem init (hinvalid : ∀ i d, 0 ≤ i → d.status = scanTileInvalid → legal i d)
    (hoob : ∀ i d, i < 0 → d.status = scanTileOob → legal i d) (h : State.Initial L s) :
    WindowInv L legal baseOk prefixOk s where
  slot := by
    intro i d hd
    rcases lt_or_ge i 0 with hi | hi
    · exact hoob i d hi (h.2.1 i hi d hd)
    · exact hinvalid i d hi (h.1 i hi d hd)
  phase := by
    intro t
    rw [h.2.2.2 t]
    trivial

theorem publish (h : WindowInv L legal baseOk prefixOk s) {t : ℕ} {d : TileDescriptor T}
    (hd : legal t d) : WindowInv L legal baseOk prefixOk (s.publish t d) where
  slot := by
    intro i x hx
    rcases State.mem_publish.mp hx with ⟨rfl, rfl⟩ | hx
    · exact hd
    · exact h.slot i x hx
  phase := h.phase

/-- Moving one tile to a phase that is in order keeps the rest. -/
theorem setTile (h : WindowInv L legal baseOk prefixOk s) {t : ℕ} {p : Phase T}
    (hp : PhaseOk L legal baseOk prefixOk t p) :
    WindowInv L legal baseOk prefixOk (s.setTile t p) where
  slot := h.slot
  phase := by
    intro t'
    by_cases ht : t' = t
    · subst ht
      rw [State.setTile_tile_self]
      exact hp
    · rw [State.setTile_tile_ne s p ht]
      exact h.phase t'

theorem setWindow (h : WindowInv L legal baseOk prefixOk s) {t b : ℕ} {soFar : Option T}
    (ht : t < L.numTiles) (hb : b < t) (hbase : baseOk t b soFar) :
    WindowInv L legal baseOk prefixOk (s.setTile t (.window b soFar noLanes)) :=
  h.setTile ⟨ht, b, rfl, hb, hbase, fun l d _ hld => absurd hld (by simp [noLanes])⟩

/-- **A window reads between the padding and the tile itself.** -/
theorem bounds (h : WindowInv L legal baseOk prefixOk s) {t lane : ℕ} {p : ℤ} {soFar : Option T}
    {lanes : ℕ → Option (TileDescriptor T)} (hs : s.tile t = .window p soFar lanes)
    (hl : lane < warpThreads) : -tileStatusPadding ≤ p - lane ∧ p - lane < L.numTiles := by
  have hph := h.phase t
  rw [hs] at hph
  obtain ⟨ht, b, rfl, hbt, -⟩ := hph
  simp only [tileStatusPadding, warpThreads] at *
  omega

theorem loaded (h : WindowInv L legal baseOk prefixOk s) {t : ℕ} {p : ℤ} {soFar : Option T}
    {lanes : ℕ → Option (TileDescriptor T)} {ds : ℕ → TileDescriptor T}
    (hs : s.tile t = .window p soFar lanes) (hds : Loaded lanes ds) :
    ∃ b : ℕ, p = b ∧ t < L.numTiles ∧ b < t ∧ baseOk t b soFar ∧
      ∀ l, l < warpThreads → legal ((b : ℤ) - l) (ds l) := by
  have hph := h.phase t
  rw [hs] at hph
  obtain ⟨ht, b, hp, hbt, hbase, hlanes⟩ := hph
  exact ⟨b, hp, ht, hbt, hbase, fun l hl => hlanes l _ hl (hds l hl)⟩

/-- What a tile has obtained is what `prefixOk` says. -/
theorem exclusivePrefix (h : WindowInv L legal baseOk prefixOk s) {t : ℕ} {e : T}
    (he : (s.tile t).exclusivePrefix? = some e) : 0 < t ∧ prefixOk t e := by
  have hph := h.phase t
  cases htile : s.tile t with
  | start => rw [htile] at he; cases he
  | window p soFar lanes => rw [htile] at he; cases he
  | found e' =>
    rw [htile] at he hph
    cases he
    exact hph
  | done e' =>
    rw [htile] at he hph
    cases he
    exact hph

/-- **The shared steps keep the invariant.** -/
theorem step (hfirst : legal 0 ⟨scanTileInclusive, L.blockAggregate 0⟩)
    (hpart : ∀ t : ℕ, 0 < t → legal t ⟨scanTilePartial, L.blockAggregate t⟩)
    (hbase : ∀ t b : ℕ, b + 1 = t → baseOk t b none)
    (h : WindowInv L legal baseOk prefixOk s) {s' : State T} {a : Action T}
    (hst : WindowStep L s a s') : WindowInv L legal baseOk prefixOk s' := by
  cases hst with
  | setInclusiveFirst hn hs => exact (h.publish hfirst).setTile trivial
  | @setPartial t h0 hn hs =>
    have hcast : (t : ℤ) - 1 = ((t - 1 : ℕ) : ℤ) := by omega
    rw [hcast]
    exact (h.publish (hpart t h0)).setWindow hn (by omega) (hbase t (t - 1) (by omega))
  | @load t lane p soFar lanes d hs hl hfree hd =>
    obtain ⟨hlo, hhi⟩ := h.bounds hs hl
    have hph := h.phase t
    rw [hs] at hph
    obtain ⟨ht, b, rfl, hbt, hb, hlanes⟩ := hph
    -- the index is inside the storage, so what was read has been published
    have hlegal : legal ((b : ℤ) - lane) d := by
      rcases hd with hd | hd | hd
      · omega
      · omega
      · exact h.slot _ _ hd
    refine h.setTile ⟨ht, b, rfl, hbt, hb, ?_⟩
    intro l x hlt hx
    by_cases hll : l = lane
    · subst hll
      rw [Function.update_self] at hx
      cases hx
      exact hlegal
    · rw [Function.update_of_ne hll] at hx
      exact hlanes l x hlt hx
  | @retry t p soFar lanes ds hs hds hany =>
    obtain ⟨b, rfl, ht, hbt, hb, -⟩ := h.loaded hs hds
    exact h.setWindow ht hbt hb

end WindowInv

/-! ## 3. A round of loads can always be completed -/

/-- The lanes can load one after the other, in any protocol that has the shared steps. -/
theorem reachable_loads {L : Launch T} {M : Lts (State T) (Action T)}
    (hM : ∀ s a s', WindowStep L s a s' → M.step s a s') {s : State T} {t : ℕ} {p : ℤ}
    {soFar : Option T} {ds : ℕ → TileDescriptor T} (hs : M.Reachable s)
    (htile : s.tile t = .window p soFar noLanes)
    (hds : ∀ l, l < warpThreads → s.Readable L (p - l) (ds l)) :
    ∀ k, k ≤ warpThreads → M.Reachable (s.setTile t (.window p soFar (firstLanes ds k)))
  | 0, _ => by
    have hsame : s.setTile t (.window p soFar (firstLanes ds 0)) = s := by
      rw [firstLanes_zero, ← htile]
      simp [State.setTile]
    rw [hsame]
    exact hs
  | k + 1, hk => by
    have ih := reachable_loads hM hs htile hds k (by omega)
    have hfree : firstLanes ds k k = none := if_neg (Nat.lt_irrefl k)
    have hstep := WindowStep.load (State.setTile_tile_self s t (.window p soFar (firstLanes ds k)))
      (by omega) hfree (hds k (by omega))
    rw [State.setTile_setTile, firstLanes_succ] at hstep
    exact ih.step (hM _ _ _ hstep)

end Cccl.Scan
