/-
# Rejection sampling

Items come from a source one after the other.  Each test takes the first item that it accepts, and what is taken
is looked at as a whole: it may be rejected, too, and then all tests begin again.

Two things are said here.  A sampler comes to an end on a stream of items if and only if the stream is not rejected
for ever (`exists_sample_iff`).  And where each item gives some digits of a number, and each test accepts as many
items with one value of these digits as with another, all numbers come from the same number of tuples
(`ncard_drawn`).
-/
import Mathlib.Data.Set.Card
import Mathlib.Data.Stream.Init

namespace Cccl

/-! ## 1. Tests -/

section Tests

variable {α : Type*} {ps : List (α → Bool)} {ok : List α → Bool} {s : Stream' α}

/-- The items that the tests accept, and the items after them. -/
def acceptEach : List (α → Bool) → List α → Option (List α × List α)
  | [], l => some ([], l)
  | _ :: _, [] => none
  | p :: ps, a :: l => if p a then (acceptEach ps l).map (Prod.map (a :: ·) id) else acceptEach (p :: ps) l

/-- A stream that one of the tests rejects for ever. -/
inductive Starves : List (α → Bool) → Stream' α → Prop
  | reject {p ps s} : (∀ i, p (s.get i) = false) → Starves (p :: ps) s
  | skip {p ps s} : p s.head = false → Starves (p :: ps) s.tail → Starves (p :: ps) s
  | accept {p ps s} : p s.head = true → Starves ps s.tail → Starves (p :: ps) s

attribute [local simp] acceptEach in
theorem acceptEach_append : ∀ {ps : List (α → Bool)} {l us rest : List α}, acceptEach ps l = some (us, rest) →
    ∀ more, acceptEach ps (l ++ more) = some (us, rest ++ more)
  | [], l, us, rest, h, more => by
    rw [acceptEach, Option.some.injEq, Prod.mk.injEq] at h
    obtain ⟨rfl, rfl⟩ := h
    rw [acceptEach]
  | _ :: _, [], _, _, h, _ => absurd h (by simp [acceptEach])
  | p :: ps, a :: l, us, rest, h, more => by
    rw [acceptEach] at h
    rw [List.cons_append, acceptEach]
    split at h
    · rename_i hp
      obtain ⟨⟨us', rest'⟩, hrest, heq⟩ := Option.map_eq_some_iff.mp h
      obtain ⟨rfl, rfl⟩ := Prod.mk.injEq _ _ _ _ ▸ heq
      rw [if_pos hp, acceptEach_append hrest more]
      rfl
    · rename_i hp
      rw [if_neg hp, acceptEach_append h more]

theorem acceptEach_length : ∀ {ps : List (α → Bool)} {l us rest : List α}, acceptEach ps l = some (us, rest) →
    us.length = ps.length ∧ us.length + rest.length ≤ l.length
  | [], l, us, rest, h => by
    rw [acceptEach, Option.some.injEq, Prod.mk.injEq] at h
    obtain ⟨rfl, rfl⟩ := h
    exact ⟨rfl, (Nat.zero_add _).le⟩
  | _ :: _, [], _, _, h => absurd h (by simp [acceptEach])
  | p :: ps, a :: l, us, rest, h => by
    rw [acceptEach] at h
    split at h
    · obtain ⟨⟨us', rest'⟩, hrest, heq⟩ := Option.map_eq_some_iff.mp h
      obtain ⟨rfl, rfl⟩ := Prod.mk.injEq _ _ _ _ ▸ heq
      obtain ⟨hlength, hle⟩ := acceptEach_length hrest
      simp only [List.length_cons, id_eq]
      omega
    · obtain ⟨hlength, hle⟩ := acceptEach_length h
      rw [List.length_cons]
      exact ⟨hlength, hle.trans (Nat.le_succ _)⟩

theorem acceptEach_subset : ∀ {ps : List (α → Bool)} {l us rest : List α}, acceptEach ps l = some (us, rest) →
    rest ⊆ l
  | [], l, us, rest, h => by
    rw [acceptEach, Option.some.injEq, Prod.mk.injEq] at h
    exact h.2 ▸ List.Subset.refl l
  | _ :: _, [], _, _, h => absurd h (by simp [acceptEach])
  | p :: ps, a :: l, us, rest, h => by
    rw [acceptEach] at h
    split at h
    · obtain ⟨⟨us', rest'⟩, hrest, heq⟩ := Option.map_eq_some_iff.mp h
      obtain ⟨rfl, rfl⟩ := Prod.mk.injEq _ _ _ _ ▸ heq
      exact List.subset_cons_of_subset a (acceptEach_subset hrest)
    · exact List.subset_cons_of_subset a (acceptEach_subset h)

/-- Where there are as many items as tests, all must be accepted. -/
theorem acceptEach_eq_some_iff : ∀ {ps : List (α → Bool)} {l us : List α}, l.length = ps.length →
    (acceptEach ps l = some (us, []) ↔ us = l ∧ List.Forall₂ (fun p a => p a = true) ps l)
  | [], l, us, h => by
    obtain rfl := List.length_eq_zero_iff.mp h
    rw [acceptEach, Option.some.injEq, Prod.mk.injEq]
    exact ⟨fun heq => ⟨heq.1.symm, .nil⟩, fun heq => ⟨heq.1.symm, rfl⟩⟩
  | _ :: _, [], _, h => absurd h (by simp)
  | p :: ps, a :: l, us, h => by
    have hlength : l.length = ps.length := Nat.succ.inj h
    rw [acceptEach]
    split
    · rename_i hp
      constructor
      · intro heq
        obtain ⟨⟨us', rest'⟩, hrest, heq⟩ := Option.map_eq_some_iff.mp heq
        obtain ⟨rfl, rfl⟩ := Prod.mk.injEq _ _ _ _ ▸ heq
        obtain ⟨rfl, hall⟩ := (acceptEach_eq_some_iff hlength).mp hrest
        exact ⟨rfl, .cons hp hall⟩
      · rintro ⟨rfl, hall⟩
        rw [(acceptEach_eq_some_iff hlength).mpr ⟨rfl, (List.forall₂_cons.mp hall).2⟩]
        rfl
    · rename_i hp
      refine iff_of_false (fun heq => ?_) fun heq => hp (List.forall₂_cons.mp heq.2).1
      obtain ⟨htests, hle⟩ := acceptEach_length heq
      rw [List.length_cons] at htests
      omega

theorem acceptEach_append_tests : ∀ (ps qs : List (α → Bool)) (l : List α), acceptEach (ps ++ qs) l =
    (acceptEach ps l).bind fun r => (acceptEach qs r.2).map (Prod.map (r.1 ++ ·) id)
  | [], qs, l => by
    rw [List.nil_append, acceptEach, Option.bind_some]
    exact (Option.map_id_apply ..).symm
  | p :: ps, qs, [] => rfl
  | p :: ps, qs, a :: l => by
    rw [List.cons_append, acceptEach, acceptEach]
    split
    · rw [acceptEach_append_tests ps qs l]
      cases acceptEach ps l with
      | none => rfl
      | some r => exact Option.map_map ..
    · exact acceptEach_append_tests (p :: ps) qs l

theorem Starves.acceptEach_eq_none (h : Starves ps s) : ∀ N, acceptEach ps (s.take N) = none := by
  induction h with
  | @reject p ps s hp =>
    intro N
    induction N generalizing s with
    | zero => rfl
    | succ N ih =>
      have hhead : p s.head = false := hp 0
      rw [Stream'.take_succ, acceptEach, if_neg (by rw [hhead]; decide)]
      exact ih fun i => hp (i + 1)
  | skip hp _ ih =>
    rintro (_ | N)
    · rfl
    · rw [Stream'.take_succ, acceptEach, if_neg (by rw [hp]; decide), ih]
  | accept hp _ ih =>
    rintro (_ | N)
    · rfl
    · rw [Stream'.take_succ, acceptEach, if_pos hp, ih]
      rfl

/-- **The tests come to an end**, or one of them rejects for ever. -/
theorem acceptEach_or_starves : ∀ (ps : List (α → Bool)) (s : Stream' α),
    (∃ N us, acceptEach ps (s.take N) = some (us, [])) ∨ Starves ps s
  | [], s => .inl ⟨0, [], rfl⟩
  | p :: ps, s => by
    by_cases hnone : ∀ i, p (s.get i) = false
    · exact .inr (.reject hnone)
    obtain ⟨i, hi⟩ := not_forall.mp hnone
    rw [Bool.not_eq_false] at hi
    clear hnone
    induction i generalizing s with
    | zero =>
      rcases acceptEach_or_starves ps s.tail with ⟨N, us, h⟩ | h
      · refine .inl ⟨N + 1, s.head :: us, ?_⟩
        rw [Stream'.take_succ, acceptEach, if_pos hi, h]
        rfl
      · exact .inr (.accept hi h)
    | succ i ih =>
      by_cases hp : p s.head = true
      · rcases acceptEach_or_starves ps s.tail with ⟨N, us, h⟩ | h
        · refine .inl ⟨N + 1, s.head :: us, ?_⟩
          rw [Stream'.take_succ, acceptEach, if_pos hp, h]
          rfl
        · exact .inr (.accept hp h)
      · rcases ih s.tail hi with ⟨N, us, h⟩ | h
        · refine .inl ⟨N + 1, us, ?_⟩
          rw [Stream'.take_succ, acceptEach, if_neg hp, h]
        · exact .inr (.skip (Bool.eq_false_iff.mpr hp) h)

/-! ## 2. Samplers -/

/-- The tests again and again, until what they take is right. -/
def sample (ps : List (α → Bool)) (ok : List α → Bool) : ℕ → List α → Option (List α × List α)
  | 0, _ => none
  | fuel + 1, l => (acceptEach ps l).bind fun r => if ok r.1 then some r else sample ps ok fuel r.2

theorem sample_ok : ∀ {fuel : ℕ} {l : List α} {r : List α × List α}, sample ps ok fuel l = some r →
    ok r.1 = true
  | fuel + 1, l, r, h => by
    rw [sample] at h
    obtain ⟨r', -, hr⟩ := Option.bind_eq_some_iff.mp h
    split at hr
    · rename_i hok
      exact Option.some.inj hr ▸ hok
    · exact sample_ok hr

/-- A stream that is rejected for ever: by one of the tests, or whenever the tests have come to an end. -/
def RejectedForever (ps : List (α → Bool)) (ok : List α → Bool) (s : Stream' α) : Prop :=
  ∃ F : Set (Stream' α), s ∈ F ∧ ∀ s ∈ F, Starves ps s ∨
    ∃ N us, acceptEach ps (s.take N) = some (us, []) ∧ ok us = false ∧ s.drop N ∈ F

theorem take_add (s : Stream' α) : ∀ N K : ℕ, s.take (N + K) = s.take N ++ (s.drop N).take K
  | 0, K => by rw [Nat.zero_add]; rfl
  | N + 1, K => by
    rw [Nat.add_right_comm, Stream'.take_succ, Stream'.take_succ, take_add s.tail, List.cons_append]
    rfl

theorem acceptEach_take {N K : ℕ} {us us' rest : List α} (h : acceptEach ps (s.take N) = some (us, []))
    (h' : acceptEach ps (s.take K) = some (us', rest)) : us' = us ∧ ∃ M, rest = (s.drop N).take M := by
  rcases Nat.le_total N K with hle | hle
  · obtain ⟨M, rfl⟩ := Nat.exists_eq_add_of_le hle
    rw [take_add, acceptEach_append h, List.nil_append, Option.some.injEq, Prod.mk.injEq] at h'
    exact ⟨h'.1.symm, M, h'.2.symm⟩
  · obtain ⟨M, rfl⟩ := Nat.exists_eq_add_of_le hle
    rw [take_add, acceptEach_append h', Option.some.injEq, Prod.mk.injEq] at h
    exact ⟨h.1, 0, (List.append_eq_nil_iff.mp h.2).1⟩

theorem RejectedForever.sample_eq_none (h : RejectedForever ps ok s) :
    ∀ fuel N, sample ps ok fuel (s.take N) = none := by
  obtain ⟨F, hs, hF⟩ := h
  intro fuel
  induction fuel generalizing s with
  | zero => exact fun _ => rfl
  | succ fuel ih =>
    intro N
    rw [sample]
    rcases hF s hs with hstarves | ⟨M, us, htake, hok, hdrop⟩
    · rw [hstarves.acceptEach_eq_none]
      rfl
    · cases hN : acceptEach ps (s.take N) with
      | none => rfl
      | some r =>
        obtain ⟨us', rest⟩ := r
        obtain ⟨rfl, K, rfl⟩ := acceptEach_take htake hN
        rw [Option.bind_some, if_neg (by rw [hok]; decide)]
        exact ih hdrop K

/-- **A sampler comes to an end** if and only if the stream is not rejected for ever. -/
theorem exists_sample_iff :
    (∃ fuel N r, sample ps ok fuel (s.take N) = some r) ↔ ¬ RejectedForever ps ok s := by
  constructor
  · rintro ⟨fuel, N, r, h⟩ hreject
    rw [hreject.sample_eq_none] at h
    exact absurd h (by simp)
  · refine fun h => by_contra fun hnone => h ⟨{s | ¬ ∃ fuel N r, sample ps ok fuel (s.take N) = some r}, hnone, ?_⟩
    intro s hs
    rcases acceptEach_or_starves ps s with ⟨N, us, htake⟩ | hstarves
    swap
    · exact .inl hstarves
    refine .inr ⟨N, us, htake, ?_, ?_⟩
    · refine Bool.eq_false_iff.mpr fun hok => hs ⟨1, N, (us, []), ?_⟩
      rw [sample, htake, Option.bind_some, if_pos hok]
    · rintro ⟨fuel, K, r, hsample⟩
      by_cases hok : ok us = true
      · refine hs ⟨1, N, (us, []), ?_⟩
        rw [sample, htake, Option.bind_some, if_pos hok]
      · refine hs ⟨fuel + 1, N + K, r, ?_⟩
        rw [take_add, sample, acceptEach_append htake, Option.bind_some, if_neg hok]
        exact hsample

end Tests

/-! ## 3. Drawn numbers -/

/-- A draw: items below the bound are accepted, and give so many bits. -/
structure Draw where
  bound : ℕ
  bits : ℕ

namespace Draw

variable {ds : List Draw}

def totalBits (ds : List Draw) : ℕ := (ds.map Draw.bits).sum

theorem exists_draw {us : List ℕ} (h : List.Forall₂ (fun d u => u < d.bound) ds us) :
    ∀ u ∈ us, ∃ d ∈ ds, u < d.bound := by
  induction h with
  | nil => exact fun u hu => absurd hu List.not_mem_nil
  | @cons d u ds us hlt _ ih =>
    intro v hv
    rcases List.mem_cons.mp hv with rfl | hv
    · exact ⟨d, List.mem_cons_self, hlt⟩
    · obtain ⟨d', hd', hlt'⟩ := ih v hv
      exact ⟨d', List.mem_cons_of_mem d hd', hlt'⟩

/-- The number whose digits are drawn, the highest first. -/
def value : List Draw → List ℕ → ℕ
  | d :: ds, u :: us => 2 ^ totalBits ds * (u % 2 ^ d.bits) + value ds us
  | _, _ => 0

/-- The tuples that are accepted and give the number. -/
def tuples (ds : List Draw) (v : ℕ) : Set (List ℕ) :=
  {us | List.Forall₂ (fun d u => u < d.bound) ds us ∧ value ds us = v}

/-- A bound with whole rounds of the digit. -/
def Even (d : Draw) : Prop := 2 ^ d.bits ∣ d.bound

theorem value_lt : ∀ (ds : List Draw) (us : List ℕ), value ds us < 2 ^ totalBits ds
  | [], _ => Nat.two_pow_pos _
  | d :: ds, [] => Nat.two_pow_pos _
  | d :: ds, u :: us => by
    have hlow := value_lt ds us
    have hdigit : u % 2 ^ d.bits < 2 ^ d.bits := Nat.mod_lt _ (Nat.two_pow_pos _)
    have htotal : totalBits (d :: ds) = totalBits ds + d.bits := Nat.add_comm _ _
    rw [value, htotal, Nat.pow_add]
    calc _ < 2 ^ totalBits ds * (u % 2 ^ d.bits) + 2 ^ totalBits ds := Nat.add_lt_add_left hlow _
      _ = 2 ^ totalBits ds * (u % 2 ^ d.bits + 1) := (Nat.mul_succ _ _).symm
      _ ≤ 2 ^ totalBits ds * 2 ^ d.bits := Nat.mul_le_mul_left _ hdigit

theorem totalBits_append (ds es : List Draw) : totalBits (ds ++ es) = totalBits ds + totalBits es := by
  rw [totalBits, List.map_append, List.sum_append]
  rfl

theorem totalBits_replicate (k : ℕ) (d : Draw) : totalBits (List.replicate k d) = k * d.bits := by
  rw [totalBits, List.map_replicate, List.sum_replicate_nat]

theorem value_append : ∀ {ds us : List _} (es : List Draw) (vs : List ℕ), us.length = ds.length →
    value (ds ++ es) (us ++ vs) = 2 ^ totalBits es * value ds us + value es vs
  | [], [], es, vs, _ => (Nat.zero_add _).symm
  | d :: ds, u :: us, es, vs, h => by
    have hrest := value_append es vs (Nat.succ.inj h)
    rw [List.cons_append, List.cons_append, value, value, hrest, totalBits_append, Nat.pow_add, Nat.mul_add,
      Nat.mul_comm (2 ^ totalBits ds), Nat.mul_assoc, Nat.add_assoc]

/-- **Each digit is accepted equally often.** -/
theorem ncard_digit {b r q : ℕ} (hr : r < 2 ^ b) : {u | u < 2 ^ b * q ∧ u % 2 ^ b = r}.ncard = q := by
  have himage : {u | u < 2 ^ b * q ∧ u % 2 ^ b = r} = (fun i => 2 ^ b * i + r) '' (Finset.range q : Set ℕ) := by
    ext u
    rw [Set.mem_ofPred_eq, Set.mem_image]
    constructor
    · rintro ⟨hlt, rfl⟩
      refine ⟨u / 2 ^ b, ?_, Nat.div_add_mod _ _⟩
      rw [Finset.mem_coe, Finset.mem_range]
      exact Nat.div_lt_of_lt_mul hlt
    · rintro ⟨i, hi, rfl⟩
      rw [Finset.mem_coe, Finset.mem_range] at hi
      refine ⟨?_, by rw [Nat.mul_add_mod, Nat.mod_eq_of_lt hr]⟩
      calc 2 ^ b * i + r < 2 ^ b * i + 2 ^ b := Nat.add_lt_add_left hr _
        _ = 2 ^ b * (i + 1) := (Nat.mul_succ _ _).symm
        _ ≤ 2 ^ b * q := Nat.mul_le_mul_left _ hi
  have hinj : Function.Injective fun i => 2 ^ b * i + r := fun i j h =>
    Nat.eq_of_mul_eq_mul_left (Nat.two_pow_pos b) (Nat.add_right_cancel h)
  rw [himage, Set.ncard_image_of_injective _ hinj, Set.ncard_coe_finset, Finset.card_range]

theorem tuples_cons (d : Draw) (ds : List Draw) (v : ℕ) : tuples (d :: ds) v =
    (fun p : ℕ × List ℕ => p.1 :: p.2) ''
      ({u | u < d.bound ∧ u % 2 ^ d.bits = v / 2 ^ totalBits ds} ×ˢ tuples ds (v % 2 ^ totalBits ds)) := by
  ext us
  rw [Set.mem_image]
  constructor
  · rintro ⟨hall, rfl⟩
    cases hall with
    | @cons _ u _ us hu hus =>
      have hlow := value_lt ds us
      refine ⟨(u, us), ⟨⟨hu, ?_⟩, hus, ?_⟩, rfl⟩
      · dsimp only
        rw [value, Nat.mul_add_div (Nat.two_pow_pos _), Nat.div_eq_of_lt hlow, Nat.add_zero]
      · dsimp only
        rw [value, Nat.mul_add_mod, Nat.mod_eq_of_lt hlow]
  · rintro ⟨⟨u, us⟩, ⟨⟨hu, hdigit⟩, hus, hvalue⟩, rfl⟩
    refine ⟨.cons hu hus, ?_⟩
    dsimp only at hdigit hvalue
    rw [value, hdigit, hvalue, Nat.div_add_mod]

/-- **All numbers come from the same number of tuples.** -/
theorem ncard_tuples : ∀ {ds : List Draw}, (∀ d ∈ ds, d.Even) → ∀ {v : ℕ}, v < 2 ^ totalBits ds →
    (tuples ds v).ncard = (ds.map fun d => d.bound / 2 ^ d.bits).prod
  | [], _, v, hv => by
    obtain rfl : v = 0 := Nat.lt_one_iff.mp hv
    have hone : tuples [] 0 = {[]} := by
      ext us
      rw [Set.mem_singleton_iff]
      constructor
      · rintro ⟨hall, -⟩
        exact List.forall₂_nil_left_iff.mp hall
      · rintro rfl
        exact ⟨.nil, rfl⟩
    rw [hone, Set.ncard_singleton]
    rfl
  | d :: ds, heven, v, hv => by
    obtain ⟨⟨q, hq⟩, hrest⟩ := List.forall_mem_cons.mp heven
    have hdigit : v / 2 ^ totalBits ds < 2 ^ d.bits := by
      rw [Nat.div_lt_iff_lt_mul (Nat.two_pow_pos _), ← Nat.pow_add]
      exact hv
    have hinj : Function.Injective fun p : ℕ × List ℕ => p.1 :: p.2 := fun p p' h =>
      Prod.ext (List.cons.inj h).1 (List.cons.inj h).2
    rw [tuples_cons, Set.ncard_image_of_injective _ hinj, Set.ncard_prod, hq, ncard_digit hdigit,
      ncard_tuples hrest (Nat.mod_lt _ (Nat.two_pow_pos _)), List.map_cons, List.prod_cons, hq,
      Nat.mul_div_cancel_left _ (Nat.two_pow_pos _)]

end Draw

end Cccl
