/-
# The look-back never gets stuck

A tile waits while a predecessor is INVALID, and whether it has to wait once more is up to the schedule.  What no
schedule can do is to bring the tiles to a state that they cannot leave: from every state that they reach, all tiles
can still be brought to their end (`lookback_completes`).

The tiles are finished in their order.  When all tiles before `t` are done, a window that starts anew finds
INCLUSIVE in lane 0 and OOB in the padding, so that it resolves at once (`Visible.fresh_finishes`).  A round that has
been begun has to be brought to its end first, with whatever its lanes have read: it then starts anew, slides, or
resolves (`Visible.finishes`).
-/
import Cccl.Scan.Lookback

namespace Cccl.Scan

open ScanTileStatus

variable {T : Type*} {L : Launch T}

/-- The look-back that goes on from a state. -/
def resumed (L : Launch T) (s₀ : State T) : Lts (State T) (Action T) where
  init s := s = s₀
  step := LookbackStep L

/-! ## 1. What can be seen -/

/-- No slot of the storage is empty, and the prefix of a tile that is done can be read. -/
structure Visible (L : Launch T) (s : State T) : Prop where
  filled : ∀ i : ℤ, -tileStatusPadding ≤ i → i < L.numTiles → s.published i ≠ []
  inclusive : ∀ t e, s.tile t = .done e → ∃ d ∈ s.published t, d.status = scanTileInclusive

namespace Visible

variable {s s' : State T} {t : ℕ}

theorem publish (h : Visible L s) (d : TileDescriptor T) : Visible L (s.publish t d) where
  filled i hlo hhi := by
    obtain ⟨x, hx⟩ := List.exists_mem_of_ne_nil _ (h.filled i hlo hhi)
    exact List.ne_nil_of_mem (State.mem_publish.mpr (Or.inr hx))
  inclusive t' e he := by
    obtain ⟨x, hx, hstatus⟩ := h.inclusive t' e he
    exact ⟨x, State.mem_publish.mpr (Or.inr hx), hstatus⟩

theorem setTile (h : Visible L s) {p : Phase T}
    (hp : ∀ e, p = .done e → ∃ d ∈ s.published t, d.status = scanTileInclusive) : Visible L (s.setTile t p) where
  filled := h.filled
  inclusive t' e he := by
    by_cases ht : t' = t
    · subst ht
      exact hp e ((State.setTile_tile_self s t' p).symm.trans he)
    · exact h.inclusive t' e ((State.setTile_tile_ne s p ht).symm.trans he)

theorem init (h : State.Initial L s) : Visible L s where
  filled := h.2.2.1
  inclusive t e he := by
    rw [h.2.2.2 t] at he
    cases he

theorem step (h : Visible L s) {a : Action T} (hst : LookbackStep L s a s') : Visible L s' := by
  have hstays : ∀ {t p}, (∀ e, p ≠ Phase.done e) → Visible L (s.setTile t p) := fun hp =>
    h.setTile fun e he => absurd he (hp e)
  cases hst with
  | window hw =>
    cases hw with
    | setInclusiveFirst => exact (h.publish _).setTile fun _ _ => ⟨_, State.mem_publish.mpr (Or.inl ⟨rfl, rfl⟩), rfl⟩
    | setPartial => exact (h.publish _).setTile fun _ he => by cases he
    | load => exact hstays fun _ he => by cases he
    | retry => exact hstays fun _ he => by cases he
  | slide => exact hstays fun _ he => by cases he
  | resolve => exact hstays fun _ he => by cases he
  | setInclusive => exact (h.publish _).setTile fun _ _ => ⟨_, State.mem_publish.mpr (Or.inl ⟨rfl, rfl⟩), rfl⟩

/-- **What a window can read** when all tiles before it are done. -/
theorem readable (h : Visible L s) (hinv : LookbackInv L s) {b : ℕ} (ht : t < L.numTiles) (hb : b < t)
    (hbefore : ∀ i < t, ∃ e, s.tile i = .done e) : ∃ ds : ℕ → TileDescriptor T, ∀ l, l < warpThreads →
      s.Readable L ((b : ℤ) - l) (ds l) ∧ (ds l).status ≠ scanTileInvalid ∧
        (l = 0 → (ds l).status = scanTileInclusive) := by
  have heach : ∀ l, ∃ d : TileDescriptor T, l < warpThreads → s.Readable L ((b : ℤ) - l) d ∧
      d.status ≠ scanTileInvalid ∧ (l = 0 → d.status = scanTileInclusive) := by
    intro l
    rcases Nat.lt_or_ge b l with hpadding | hle
    · by_cases hl : l < warpThreads
      swap
      · exact ⟨⟨scanTileOob, L.blockAggregate 0⟩, fun hlt => absurd hlt hl⟩
      simp only [warpThreads] at hl
      obtain ⟨d, hd⟩ := List.exists_mem_of_ne_nil _
        (h.filled ((b : ℤ) - l) (by simp only [tileStatusPadding]; omega) (by have := hb.trans ht; omega))
      refine ⟨d, fun _ => ⟨Or.inr (Or.inr hd), fun hinvalid => ?_, fun hzero => by omega⟩⟩
      have hlegal := hinv.slot _ d hd
      rw [Legal, hinvalid] at hlegal
      dsimp only at hlegal
      omega
    · obtain ⟨e, he⟩ := hbefore (b - l) (by omega)
      obtain ⟨d, hd, hstatus⟩ := h.inclusive _ e he
      refine ⟨d, fun _ => ⟨Or.inr (Or.inr ?_), by rw [hstatus]; decide, fun _ => hstatus⟩⟩
      rwa [Nat.cast_sub hle] at hd
  obtain ⟨ds, hds⟩ := Classical.axiom_of_choice heach
  exact ⟨ds, hds⟩

end Visible

/-! ## 2. A tile at a time -/

/-- The tile can be brought to its end, and no other one has to move. -/
def Finishes (M : Lts (State T) (Action T)) (t : ℕ) (s : State T) : Prop :=
  ∃ s' e, M.Reachable s' ∧ s'.tile t = .done e ∧ ∀ i, i ≠ t → s'.tile i = s.tile i

section Finish

variable {s₀ s : State T} {t : ℕ}

theorem Finishes.of_setTile {p : Phase T} (h : Finishes (resumed L s₀) t (s.setTile t p)) :
    Finishes (resumed L s₀) t s := by
  obtain ⟨s', e, hs', he, hothers⟩ := h
  exact ⟨s', e, hs', he, fun i hi => (hothers i hi).trans (State.setTile_tile_ne s p hi)⟩

theorem found_finishes {e : T} (hs : (resumed L s₀).Reachable s) (htile : s.tile t = .found e) :
    Finishes (resumed L s₀) t s :=
  ⟨_, some e, hs.step (LookbackStep.setInclusive htile), State.setTile_tile_self _ _ _,
    fun _ hi => State.setTile_tile_ne _ _ hi⟩

/-- A round of loads that has been begun can be completed. -/
theorem exists_loaded {p : ℤ} {soFar : Option T} {lanes : ℕ → Option (TileDescriptor T)} {ds : ℕ → TileDescriptor T}
    (hs : (resumed L s₀).Reachable s) (htile : s.tile t = .window p soFar lanes)
    (hds : ∀ l, l < warpThreads → s.Readable L (p - l) (ds l)) : ∀ k ≤ warpThreads, ∃ lanes',
      (resumed L s₀).Reachable (s.setTile t (.window p soFar lanes')) ∧ ∀ l, l < k → (lanes' l).isSome
  | 0, _ => by
    refine ⟨lanes, ?_, fun l hl => absurd hl (Nat.not_lt_zero l)⟩
    rw [← htile, State.setTile, Function.update_eq_self]
    exact hs
  | k + 1, hk => by
    obtain ⟨lanes', hreach, hsome⟩ := exists_loaded hs htile hds k (Nat.le_of_succ_le hk)
    cases hfree : lanes' k with
    | some d =>
      refine ⟨lanes', hreach, fun l hl => ?_⟩
      rcases Nat.lt_or_eq_of_le (Nat.le_of_lt_succ hl) with hlt | rfl
      · exact hsome l hlt
      · rw [hfree, Option.isSome_some]
    | none =>
      have hstep := WindowStep.load (State.setTile_tile_self s t (.window p soFar lanes')) hk hfree (hds k hk)
      rw [State.setTile_setTile] at hstep
      refine ⟨_, hreach.step (.window hstep), fun l hl => ?_⟩
      by_cases heq : l = k
      · rw [heq, Function.update_self, Option.isSome_some]
      · rw [Function.update_of_ne heq]
        exact hsome l (Nat.lt_of_le_of_ne (Nat.le_of_lt_succ hl) heq)

/-- A window that starts anew resolves when all tiles before are done. -/
theorem Visible.fresh_finishes (h : Visible L s) (hinv : LookbackInv L s) (hs : (resumed L s₀).Reachable s)
    {b : ℕ} {soFar : Option T} (ht : t < L.numTiles) (hb : b < t) (hbefore : ∀ i < t, ∃ e, s.tile i = .done e)
    (htile : s.tile t = .window b soFar noLanes) : Finishes (resumed L s₀) t s := by
  obtain ⟨ds, hds⟩ := h.readable hinv ht hb hbefore
  have hload := reachable_loads (fun _ _ _ => LookbackStep.window) hs htile (fun l hl => (hds l hl).1) warpThreads
    le_rfl
  have hstep := LookbackStep.resolve (L := L)
    (State.setTile_tile_self s t (.window b soFar (firstLanes ds warpThreads)))
    (loaded_firstLanes ds) (fun l hl => (hds l hl).2.1) ⟨0, by decide, (hds 0 (by decide)).2.2 rfl⟩
  rw [State.setTile_setTile] at hstep
  exact (found_finishes (hload.step hstep) (State.setTile_tile_self _ _ _)).of_setTile

end Finish

section Run

variable (hop : ∀ x y z, L.scanOp (L.scanOp x y) z = L.scanOp x (L.scanOp y z)) {s₀ : State T}
  (hs₀ : (lookback L).Reachable s₀)

include hop hs₀

/-- A state that is reached later has been reached, and keeps what all reached states keep. -/
theorem resumed_inv {s : State T} (hs : (resumed L s₀).Reachable s) : Visible L s ∧ LookbackInv L s := by
  have hstart : Visible L s₀ ∧ LookbackInv L s₀ :=
    ⟨hs₀.invariant (fun _ => Visible.init) fun _ _ _ hv => hv.step, lookbackInv_reachable hop hs₀⟩
  exact hs.invariant (P := fun s => Visible L s ∧ LookbackInv L s) (by rintro _ rfl; exact hstart)
    fun _ _ _ hv hst => ⟨hv.1.step hst, lookbackInv_step hop hv.2 hst⟩

/-- **The next tile can be finished**, whatever it is doing. -/
theorem next_finishes {s : State T} {t : ℕ} (hs : (resumed L s₀).Reachable s) (ht : t < L.numTiles)
    (hbefore : ∀ i < t, ∃ e, s.tile i = .done e) : Finishes (resumed L s₀) t s := by
  -- a fresh window, in a state that differs in this tile only
  have hfresh : ∀ {p : ℕ} {soFar : Option T} {s' : State T}, p < t →
      (resumed L s₀).Reachable (s'.setTile t (.window p soFar noLanes)) → (∀ i, i ≠ t → s'.tile i = s.tile i) →
      Finishes (resumed L s₀) t s := by
    intro p soFar s' hp hreach hsame
    have hothers : ∀ i, i ≠ t → (s'.setTile t (.window p soFar noLanes)).tile i = s.tile i := fun i hi =>
      (State.setTile_tile_ne s' _ hi).trans (hsame i hi)
    obtain ⟨hv, hinv⟩ := resumed_inv hop hs₀ hreach
    obtain ⟨s'', e, hs'', he, hkept⟩ := hv.fresh_finishes hinv hreach ht hp
      (fun i hi => by rw [hothers i hi.ne]; exact hbefore i hi) (State.setTile_tile_self s' t _)
    exact ⟨s'', e, hs'', he, fun i hi => (hkept i hi).trans (hothers i hi)⟩
  obtain ⟨hv, hinv⟩ := resumed_inv hop hs₀ hs
  cases htile : s.tile t with
  | done e => exact ⟨s, e, hs, htile, fun _ _ => rfl⟩
  | found e => exact found_finishes hs htile
  | start =>
    rcases Nat.eq_zero_or_pos t with rfl | hpos
    · exact ⟨_, none, hs.step (.window (.setInclusiveFirst ht htile)), State.setTile_tile_self _ _ _,
        fun _ hi => State.setTile_tile_ne _ _ hi⟩
    · have hreach := hs.step (LookbackStep.window (.setPartial hpos ht htile))
      rw [show (t : ℤ) - 1 = ((t - 1 : ℕ) : ℤ) by omega] at hreach
      exact hfresh (Nat.sub_lt hpos Nat.one_pos) hreach fun _ _ => rfl
  | window p soFar lanes =>
    have hphase := hinv.phase t
    rw [htile] at hphase
    obtain ⟨-, b, rfl, hb, -⟩ := hphase
    obtain ⟨ds, hds⟩ := hv.readable hinv ht hb hbefore
    obtain ⟨lanes', hreach, hsome⟩ := exists_loaded hs htile (fun l hl => (hds l hl).1) warpThreads le_rfl
    have hself := State.setTile_tile_self s t (.window b soFar lanes')
    have hloaded : Loaded lanes' fun l => (lanes' l).getD (ds l) := fun l hl => by
      obtain ⟨d, hd⟩ := Option.isSome_iff_exists.mp (hsome l hl)
      show lanes' l = some ((lanes' l).getD (ds l))
      rw [hd, Option.getD_some]
    by_cases hretry : ∃ l, l < warpThreads ∧ ((lanes' l).getD (ds l)).status = scanTileInvalid
    · have hnext := hreach.step (LookbackStep.window (.retry hself hloaded hretry))
      rw [State.setTile_setTile] at hnext
      exact hfresh hb hnext fun _ _ => rfl
    have hvalid : ∀ l, l < warpThreads → ((lanes' l).getD (ds l)).status ≠ scanTileInvalid := fun l hl hinvalid =>
      hretry ⟨l, hl, hinvalid⟩
    by_cases hfound : ∃ l, l < warpThreads ∧ ((lanes' l).getD (ds l)).status = scanTileInclusive
    · have hnext := hreach.step (LookbackStep.resolve hself hloaded hvalid hfound)
      exact ((found_finishes hnext (State.setTile_tile_self _ _ _)).of_setTile).of_setTile
    · have hnext := hreach.step (LookbackStep.slide hself hloaded hvalid fun l hl h => hfound ⟨l, hl, h⟩)
      have hphase := (resumed_inv hop hs₀ hnext).2.phase t
      rw [State.setTile_tile_self] at hphase
      obtain ⟨-, b', hb', hless, -⟩ := hphase
      rw [State.setTile_setTile, hb'] at hnext
      exact hfresh hless hnext fun _ _ => rfl

/-- **The look-back never gets stuck.**  From every state that the tiles reach, in whatever order they have taken
their steps and whatever their loads have returned, all tiles can still be brought to their end. -/
theorem lookback_completes :
    ∃ s, (resumed L s₀).Reachable s ∧ ∀ t < L.numTiles, ∃ e, s.tile t = .done e := by
  suffices h : ∀ n ≤ L.numTiles, ∃ s, (resumed L s₀).Reachable s ∧ ∀ t < n, ∃ e, s.tile t = .done e from
    h _ le_rfl
  intro n
  induction n with
  | zero => exact fun _ => ⟨s₀, .init rfl, fun t ht => absurd ht (Nat.not_lt_zero t)⟩
  | succ n ih =>
    intro hn
    obtain ⟨s, hs, hbefore⟩ := ih (Nat.le_of_succ_le hn)
    obtain ⟨s', e, hs', he, hothers⟩ := next_finishes hop hs₀ hs hn hbefore
    refine ⟨s', hs', fun t ht => ?_⟩
    rcases Nat.lt_or_eq_of_le (Nat.le_of_lt_succ ht) with hlt | rfl
    · rw [hothers t hlt.ne]
      exact hbefore t hlt
    · exact ⟨e, he⟩

end Run

/-- Two tiles that have published go on to their end. -/
theorem lookback_completes_twoTiles : ∃ s, (resumed twoTiles twoTilesPublished).Reachable s ∧
    ∀ t < 2, ∃ e, s.tile t = .done e :=
  lookback_completes (L := twoTiles) List.append_assoc
    (twoTilesPublished_reachable twoTilesInit_initial fun _ _ _ => LookbackStep.window)

end Cccl.Scan
