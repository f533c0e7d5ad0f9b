/-
# Worklists

Each of finitely many items needs some others, and may be taken when these are marked.  A worklist holds the items that
may be taken and were not.  An item is taken from it, in any order; the item is marked then, or it is not; and the items
that need it are added, if they may be taken now.

No item is lost and none is added twice (`Inv.step`): the list always holds exactly those that may be taken.  So each item
is taken at most once, and after the ones that it needs; and if each one is marked and no item needs itself through others,
then all of them are taken (`Inv.perm`).
-/
import Mathlib.Order.WellFounded
import Mathlib.Data.Fintype.EquivFin

namespace Cccl.Worklist

variable {α : Type*} (needs wakes : α → List α)

/-! ## 1. Orders -/

/-- Each item comes after the ones that it needs. -/
def Ordered (done : List α) : Prop := ∀ before x after, done = before ++ x :: after → ∀ y ∈ needs x, y ∈ before

variable {needs wakes}

theorem Ordered.nil : Ordered needs [] := by
  intro before x after h
  exact absurd h.symm (List.append_ne_nil_of_right_ne_nil _ (List.cons_ne_nil _ _))

theorem Ordered.snoc {done : List α} (h : Ordered needs done) {x : α} (hx : ∀ y ∈ needs x, y ∈ done) :
    Ordered needs (done ++ [x]) := by
  intro before z after heq y hy
  rcases List.eq_nil_or_concat after with rfl | ⟨after', w, rfl⟩
  · obtain ⟨rfl, hz⟩ := List.append_inj' heq rfl
    obtain rfl := List.singleton_inj.mp hz
    exact hx y hy
  · rw [List.concat_eq_append, ← List.cons_append, ← List.append_assoc] at heq
    exact h before z after' (List.append_inj' heq rfl).1 y hy

/-! ## 2. The invariant -/

/-- What an item wakes are the items that need it. -/
structure Matched (needs wakes : α → List α) (items : List α) : Prop where
  nodup : ∀ x ∈ items, (wakes x).Nodup
  inverse : ∀ x ∈ items, ∀ y, y ∈ wakes x ↔ y ∈ items ∧ x ∈ needs y

/-- The worklist holds the items that may be taken and were not. -/
structure Inv (needs : α → List α) (items queue done : List α) (marked : α → Prop) : Prop where
  nodup : (queue ++ done).Nodup
  ready : ∀ x, x ∈ queue ↔ x ∈ items ∧ x ∉ done ∧ ∀ y ∈ needs x, marked y
  items : ∀ x ∈ done, x ∈ items
  marked : ∀ x, marked x → x ∈ done
  ordered : Ordered needs done

variable {items queue queue' rest new done : List α} {marked marked' : α → Prop} {x : α} {flag : Prop}

theorem Inv.init (hmarked : ∀ y, ¬ marked y) (hqueue : queue.Nodup)
    (hmem : ∀ y, y ∈ queue ↔ y ∈ items ∧ needs y = []) : Inv needs items queue [] marked := by
  refine ⟨by rwa [List.append_nil], fun y => ?_, fun y hy => absurd hy List.not_mem_nil,
    fun y hy => absurd hy (hmarked y), Ordered.nil⟩
  rw [hmem, List.eq_nil_iff_forall_not_mem]
  refine and_congr_right fun _ => ⟨fun h => ⟨List.not_mem_nil, fun z hz => absurd hz (h z)⟩, fun h z hz => ?_⟩
  exact hmarked z (h.2 z hz)

/-- **Taking an item**: the ones that may be taken now are those that it wakes. -/
theorem Inv.step (h : Inv needs items queue done marked) (hm : Matched needs wakes items)
    (htake : queue.Perm (x :: rest)) (hmarked : ∀ z, marked' z ↔ marked z ∨ z = x ∧ flag)
    (hnew : new.Nodup) (hmem : ∀ y, y ∈ new ↔ y ∈ wakes x ∧ y ∉ done ∧ y ≠ x ∧ ∀ z ∈ needs y, marked' z)
    (hqueue : queue'.Perm (rest ++ new)) : Inv needs items queue' (done ++ [x]) marked' := by
  have hnodup : ((x :: rest) ++ done).Nodup := (htake.append_right done).nodup_iff.mp h.nodup
  rw [List.cons_append, List.nodup_cons, List.mem_append, not_or, List.nodup_append'] at hnodup
  obtain ⟨⟨hxrest, hxdone⟩, hrest, hdone, hdisjoint⟩ := hnodup
  have hx := (h.ready x).mp (htake.mem_iff.mpr List.mem_cons_self)
  have hmono : ∀ z, marked z → marked' z := fun z hz => (hmarked z).mpr (Or.inl hz)
  have hinverse := hm.inverse x hx.1
  have hrest_iff : ∀ y, y ∈ rest ↔ y ∈ queue ∧ y ≠ x := by
    intro y
    rw [htake.mem_iff, List.mem_cons]
    refine ⟨fun hy => ⟨Or.inr hy, ?_⟩, fun hy => hy.1.resolve_left hy.2⟩
    rintro rfl
    exact hxrest hy
  constructor
  · have hperm : (queue' ++ (done ++ [x])).Perm (x :: (rest ++ new ++ done)) := by
      rw [← List.append_assoc]
      exact (List.perm_append_comm).trans ((hqueue.append_right done).cons x)
    rw [hperm.nodup_iff, List.nodup_cons, List.mem_append, List.mem_append, not_or, not_or]
    refine ⟨⟨⟨hxrest, fun hx' => ((hmem x).mp hx').2.2.1 rfl⟩, hxdone⟩, ?_⟩
    rw [List.nodup_append', List.nodup_append', List.disjoint_append_left]
    refine ⟨⟨hrest, hnew, fun y hy hy' => ?_⟩, hdone, hdisjoint, fun y hy hy' => ((hmem y).mp hy).2.1 hy'⟩
    -- an item that was in the list does not need the one that is taken, which was not marked
    have hneeds := ((h.ready y).mp ((hrest_iff y).mp hy).1).2.2
    exact hxdone (h.marked x (hneeds x ((hinverse y).mp ((hmem y).mp hy').1).2))
  · intro y
    rw [hqueue.mem_iff, List.mem_append, hrest_iff, h.ready, hmem, List.mem_append, List.mem_singleton, not_or]
    constructor
    · rintro (⟨⟨hitem, hnot, hneeds⟩, hne⟩ | ⟨hwoken, hnot, hne, hneeds⟩)
      · exact ⟨hitem, ⟨hnot, hne⟩, fun z hz => hmono z (hneeds z hz)⟩
      · exact ⟨((hinverse y).mp hwoken).1, ⟨hnot, hne⟩, hneeds⟩
    · rintro ⟨hitem, ⟨hnot, hne⟩, hneeds⟩
      by_cases hold : ∀ z ∈ needs y, marked z
      · exact Or.inl ⟨⟨hitem, hnot, hold⟩, hne⟩
      · push Not at hold
        obtain ⟨z, hz, hzold⟩ := hold
        obtain ⟨rfl, -⟩ := ((hmarked z).mp (hneeds z hz)).resolve_left hzold
        exact Or.inr ⟨(hinverse y).mpr ⟨hitem, hz⟩, hnot, hne, hneeds⟩
  · intro y hy
    rcases List.mem_append.mp hy with hy | hy
    · exact h.items y hy
    · exact List.mem_singleton.mp hy ▸ hx.1
  · intro y hy
    rcases (hmarked y).mp hy with hy | ⟨rfl, -⟩
    · exact List.mem_append_left _ (h.marked y hy)
    · exact List.mem_append_right _ (List.mem_singleton_self y)
  · exact h.ordered.snoc fun y hy => h.marked y (hx.2.2 y hy)

theorem Inv.length_le (h : Inv needs items queue done marked) : queue.length + done.length ≤ items.length := by
  rw [← List.length_append]
  refine (List.subperm_of_subset h.nodup fun y hy => ?_).length_le
  rcases List.mem_append.mp hy with hy | hy
  · exact ((h.ready y).mp hy).1
  · exact h.items y hy

/-- **In the end all items were taken**, if all that were taken are marked, and no item needs itself. -/
theorem Inv.perm (h : Inv needs items [] done marked) (hitems : items.Nodup)
    (hclosed : ∀ x ∈ items, ∀ y ∈ needs x, y ∈ items)
    (hacyclic : ∀ x, ¬ Relation.TransGen (fun y z => y ∈ needs z) x x) (hall : ∀ x ∈ done, marked x) :
    done.Perm items := by
  have hdone : done.Nodup := h.nodup
  rw [List.perm_ext_iff_of_nodup hdone hitems]
  refine fun y => ⟨h.items y, fun hy => ?_⟩
  by_contra hnot
  let R : {y // y ∈ items} → {y // y ∈ items} → Prop := fun y z => Relation.TransGen (fun y z => y ∈ needs z) y.1 z.1
  have hwf : WellFounded R := by
    haveI : Finite {y // y ∈ items} := by
      refine Finite.of_surjective (fun i : Fin items.length => (⟨items.get i, List.get_mem _ i⟩ : {y // y ∈ items})) ?_
      rintro ⟨y, hy⟩
      obtain ⟨i, rfl⟩ := List.mem_iff_get.mp hy
      exact ⟨i, rfl⟩
    haveI : IsTrans _ R := ⟨fun _ _ _ => Relation.TransGen.trans⟩
    haveI : Std.Irrefl R := ⟨fun z hz => hacyclic z.1 hz⟩
    exact Finite.wellFounded_of_trans_of_irrefl R
  -- a first one that was not taken could be taken
  obtain ⟨z, hz, hmin⟩ := hwf.has_min {z | z.1 ∉ done} ⟨⟨y, hy⟩, hnot⟩
  have hready : z.1 ∈ ([] : List α) := by
    refine (h.ready z.1).mpr ⟨z.2, hz, fun w hw => hall w ?_⟩
    by_contra hw'
    exact hmin ⟨w, hclosed z.1 z.2 w hw⟩ hw' (Relation.TransGen.single hw)
  exact absurd hready List.not_mem_nil

end Cccl.Worklist
